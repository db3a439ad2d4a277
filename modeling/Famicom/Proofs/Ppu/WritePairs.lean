import Famicom.Proofs.Ppu.Reachable
import Famicom.Proofs.Ppu.StatusHistory

/-!
# Pairs of writes

The scroll position and the address are written in two halves each, and both registers share one
turn. What the halves make of the next address is told in numbers; the masks of the registers are
shown to compute it. Writes to the control register reach a field of their own.
-/

namespace Famicom

namespace Ppu

variable {ppu : Ppu}

/-! ## The registers in numbers -/

theorem eq_ofNat {a : UInt16} {n : Nat} (h : a.toNat = n) : a = .ofNat n := by
  rw [← h, UInt16.ofNat_toNat]

/-- The name table in the next address is that of the write, and nothing else of it changes. -/
theorem writeControl_next (ppu : Ppu) (value : UInt8) :
    (ppu.writeControl value).nextAddress.toNat = ppu.nextAddress.toNat / 0x1000 * 0x1000 +
      value.toNat % 4 * 0x400 + ppu.nextAddress.toNat % 0x400 := by
  have table := toNat_moved value 0x03 0x400 2 0 10 rfl rfl (by decide)
  have put := toNat_insert ppu.nextAddress 0x0C00 2 10 rfl table (by omega)
  change ((ppu.nextAddress &&& ~~~0x0C00) ||| (value &&& 0x03).toUInt16 * 0x400).toNat = _
  omega

/-- A half of a pair: a byte for the scroll position or for the address. -/
inductive Half
  | scroll (value : UInt8)
  | address (value : UInt8)
deriving DecidableEq, Repr

namespace Half

def write (half : Half) (ppu : Ppu) : Ppu :=
  match half with
  | scroll value => ppu.writeScroll value
  | address value => ppu.writeAddress value

/-- What a half does whose turn is the first: the column and the dot in it, or the high six bits. -/
def first (half : Half) (ppu : Ppu) : Ppu :=
  match half with
  | scroll value => { ppu with
      nextAddress := .ofNat (ppu.nextAddress.toNat / 0x20 * 0x20 + value.toNat / 8)
      fineX := .ofNat (value.toNat % 8)
      firstWrite := false }
  | address value => { ppu with
      nextAddress := .ofNat (value.toNat % 0x40 * 0x100 + ppu.nextAddress.toNat % 0x100)
      firstWrite := false }

/-- What a half does whose turn is the second: the row and the line in it, or the low byte, which
completes the address. -/
def second (half : Half) (ppu : Ppu) : Ppu :=
  match half with
  | scroll value => { ppu with
      nextAddress := .ofNat (value.toNat % 8 * 0x1000 +
        ppu.nextAddress.toNat / 0x400 % 4 * 0x400 + value.toNat / 8 * 0x20 +
        ppu.nextAddress.toNat % 0x20)
      firstWrite := true }
  | address value =>
    let address : UInt16 := .ofNat (ppu.nextAddress.toNat / 0x100 * 0x100 + value.toNat)
    { ppu with address := address, nextAddress := address, firstWrite := true }

end Half

theorem write_first (turn : ppu.firstWrite = true) (half : Half) :
    half.write ppu = half.first ppu := by
  have bound := ppu.nextAddress.toNat_lt
  cases half with
  | scroll value =>
    have column : (value / 8).toUInt16.toNat = value.toNat / 8 * 2 ^ 0 := by simp
    have put := toNat_insert ppu.nextAddress 0x001F 5 0 rfl column (by
      have := value.toNat_lt
      omega)
    have next := eq_ofNat (n := ppu.nextAddress.toNat / 0x20 * 0x20 + value.toNat / 8)
      (a := (ppu.nextAddress &&& ~~~0x001F) ||| (value / 8).toUInt16) (by omega)
    have fine : value &&& 0x07 = .ofNat (value.toNat % 8) := by
      have low := toNat_and_byte value 0x07 3 0 rfl
      apply UInt8.toNat_inj.1
      rw [low, UInt8.toNat_ofNat']
      omega
    rw [Half.write, writeScroll, if_pos turn, Half.first, ← next, fine]
  | address value =>
    have high := toNat_moved value 0x3F 0x100 6 0 8 rfl rfl (by decide)
    have put := toNat_insert ppu.nextAddress 0xFF00 8 8 rfl high (by omega)
    have next := eq_ofNat (n := value.toNat % 0x40 * 0x100 + ppu.nextAddress.toNat % 0x100)
      (a := (ppu.nextAddress &&& 0x00FF) ||| (value &&& 0x3F).toUInt16 * 0x100) (by
        change ((ppu.nextAddress &&& ~~~0xFF00) ||| _).toNat = _
        omega)
    rw [Half.write, writeAddress, if_pos turn, Half.first, ← next]

theorem write_second (small : ppu.nextAddress < addressEnd) (turn : ppu.firstWrite = false)
    (half : Half) : half.write ppu = half.second ppu := by
  have bound : ppu.nextAddress.toNat < 0x8000 := UInt16.lt_iff_toNat_lt.1 small
  have passed : ¬ppu.firstWrite = true := by simp [turn]
  cases half with
  | scroll value =>
    have value_lt := value.toNat_lt
    have line := toNat_moved value 0x07 0x1000 3 0 12 rfl rfl (by decide)
    have row := toNat_moved value 0xF8 4 5 3 2 rfl rfl (by decide)
    have inner := toNat_insert ppu.nextAddress 0x7000 3 12 rfl line (by omega)
    have outer := toNat_insert
      ((ppu.nextAddress &&& ~~~0x7000) ||| (value &&& 0x07).toUInt16 * 0x1000)
      0x03E0 5 5 rfl row (by omega)
    have next := eq_ofNat (n := value.toNat % 8 * 0x1000 +
        ppu.nextAddress.toNat / 0x400 % 4 * 0x400 + value.toNat / 8 * 0x20 +
        ppu.nextAddress.toNat % 0x20)
      (a := (ppu.nextAddress &&& ~~~0x73E0) ||| (value &&& 0x07).toUInt16 * 0x1000 |||
        (value &&& 0xF8).toUInt16 * 4) (by
        rw [show (0x73E0 : UInt16) = 0x7000 ||| 0x03E0 by decide,
          insert_both ppu.nextAddress _ (by decide) (and_mask 3 12 rfl line (by omega))]
        omega)
    rw [Half.write, writeScroll, if_neg passed, Half.second, ← next]
  | address value =>
    have whole : value.toUInt16.toNat = value.toNat * 2 ^ 0 := by simp
    have put := toNat_insert ppu.nextAddress 0x00FF 8 0 rfl whole value.toNat_lt
    have next := eq_ofNat (n := ppu.nextAddress.toNat / 0x100 * 0x100 + value.toNat)
      (a := (ppu.nextAddress &&& 0xFF00) ||| value.toUInt16) (by
        change ((ppu.nextAddress &&& ~~~0x00FF) ||| _).toNat = _
        omega)
    rw [Half.write, writeAddress, if_neg passed, Half.second, ← next]

theorem write_turn (half : Half) (ppu : Ppu) : (half.write ppu).firstWrite = !ppu.firstWrite := by
  cases turn : ppu.firstWrite <;> cases half <;> simp [Half.write, writeScroll, writeAddress, turn]

/-- The two things that a half can do are told apart by the turn they leave. -/
theorem write_first_iff (half : Half) :
    half.write ppu = half.first ppu ↔ ppu.firstWrite = true := by
  refine ⟨fun same => ?_, fun turn => write_first turn half⟩
  have left : (half.first ppu).firstWrite = false := by cases half <;> rfl
  rw [← same, write_turn] at left
  simpa using left

theorem write_second_iff (tame : ppu.Tame) (half : Half) :
    half.write ppu = half.second ppu ↔ ppu.firstWrite = false := by
  refine ⟨fun same => ?_, fun turn => write_second tame.nextAddress turn half⟩
  have left : (half.second ppu).firstWrite = true := by cases half <;> rfl
  rw [← same, write_turn] at left
  simpa using left

/-! ## Writes to the control register -/

theorem eq_of_next {p q : Ppu} (rest : { p with nextAddress := 0 } = { q with nextAddress := 0 })
    (next : p.nextAddress.toNat = q.nextAddress.toNat) : p = q :=
  calc
    p = { { p with nextAddress := 0 } with nextAddress := p.nextAddress } := rfl
    _ = { { q with nextAddress := 0 } with nextAddress := q.nextAddress } := by
      rw [rest, UInt16.toNat_inj.1 next]
    _ = q := rfl

theorem writeControl_again (ppu : Ppu) (earlier value : UInt8) :
    (ppu.writeControl earlier).writeControl value = ppu.writeControl value := by
  refine eq_of_next (by rfl) ?_
  rw [writeControl_next, writeControl_next, writeControl_next]
  omega

theorem first_scroll_next (ppu : Ppu) (value : UInt8) :
    ((Half.scroll value).first ppu).nextAddress.toNat =
      ppu.nextAddress.toNat / 0x20 * 0x20 + value.toNat / 8 := by
  have bound := ppu.nextAddress.toNat_lt
  have value_lt := value.toNat_lt
  rw [Half.first, UInt16.toNat_ofNat']
  omega

theorem second_scroll_next (ppu : Ppu) (value : UInt8) :
    ((Half.scroll value).second ppu).nextAddress.toNat = value.toNat % 8 * 0x1000 +
      ppu.nextAddress.toNat / 0x400 % 4 * 0x400 + value.toNat / 8 * 0x20 +
      ppu.nextAddress.toNat % 0x20 := by
  have value_lt := value.toNat_lt
  rw [Half.second, UInt16.toNat_ofNat']
  omega

/-- A row, a table and a column put together, and the table replaced. -/
theorem retable {line table row column : Nat} (other : Nat) (ht : table < 4) (hr : row < 0x20)
    (hc : column < 0x20) :
    (line * 0x1000 + table * 0x400 + row * 0x20 + column) / 0x1000 * 0x1000 + other * 0x400 +
      (line * 0x1000 + table * 0x400 + row * 0x20 + column) % 0x400 =
    line * 0x1000 + other * 0x400 + row * 0x20 + column := by
  omega

/-- Writes of a scroll position and of a name table can change places. -/
theorem writeScroll_control (tame : ppu.Tame) (control value : UInt8) :
    (ppu.writeControl control).writeScroll value = (ppu.writeScroll value).writeControl control := by
  have bound : ppu.nextAddress.toNat < 0x8000 := UInt16.lt_iff_toNat_lt.1 tame.nextAddress
  have value_lt := value.toNat_lt
  have held := writeControl_next ppu control
  cases turn : ppu.firstWrite with
  | true =>
    have same : (ppu.writeControl control).firstWrite = true := turn
    have behind : (ppu.writeControl control).writeScroll value = _ :=
      write_first same (.scroll value)
    have alone : ppu.writeScroll value = _ := write_first turn (.scroll value)
    rw [behind, alone]
    refine eq_of_next (by rfl) ?_
    rw [writeControl_next, first_scroll_next, first_scroll_next]
    omega
  | false =>
    have moved := (writeControl_offBeam control).tame ppu tame
    have table : (ppu.writeControl control).nextAddress.toNat / 0x400 % 4 = control.toNat % 4 := by
      omega
    have column : (ppu.writeControl control).nextAddress.toNat % 0x20 =
        ppu.nextAddress.toNat % 0x20 := by
      omega
    have behind : (ppu.writeControl control).writeScroll value = _ :=
      write_second moved.nextAddress turn (.scroll value)
    have alone : ppu.writeScroll value = _ := write_second tame.nextAddress turn (.scroll value)
    rw [behind, alone]
    refine eq_of_next (by rfl) ?_
    rw [writeControl_next, second_scroll_next, second_scroll_next, table, column,
      retable _ (Nat.mod_lt _ (by decide)) (by omega) (Nat.mod_lt _ (by decide))]

theorem controls_scroll (tame : ppu.Tame) (controls : List UInt8) (value : UInt8) :
    (controls.foldl writeControl ppu).writeScroll value =
      controls.foldl writeControl (ppu.writeScroll value) := by
  induction controls generalizing ppu with
  | nil => rfl
  | cons control rest ih =>
    rw [List.foldl_cons, ih ((writeControl_offBeam control).tame ppu tame),
      writeScroll_control tame, List.foldl_cons]

/-- Of several writes to the control register only the last one counts. -/
theorem controls_last {controls : List UInt8} {last : UInt8} (h : controls.getLast? = some last)
    (ppu : Ppu) : controls.foldl writeControl ppu = ppu.writeControl last := by
  obtain ⟨earlier, rfl⟩ := List.getLast?_eq_some_iff.1 h
  rw [List.foldl_append, List.foldl_cons, List.foldl_nil]
  clear h
  induction earlier generalizing ppu with
  | nil => rfl
  | cons control rest ih => rw [List.foldl_cons, ih, writeControl_again]

/-! ## Whole pairs -/

/-- A scroll position and a name table as one word. -/
def scrollWord (column row table : UInt8) : UInt16 :=
  (row &&& 7).toUInt16 <<< 12 ||| (table &&& 3).toUInt16 <<< 10 ||| (row >>> 3).toUInt16 <<< 5 |||
    (column >>> 3).toUInt16

theorem scrollWord_toNat (column row table : UInt8) : (scrollWord column row table).toNat =
    row.toNat % 8 * 0x1000 + table.toNat % 4 * 0x400 + row.toNat / 8 * 0x20 +
      column.toNat / 8 := by
  have column_lt := column.toNat_lt
  have row_lt := row.toNat_lt
  have low_row := toNat_and_byte row 7 3 0 rfl
  have low_table := toNat_and_byte table 3 2 0 rfl
  have high_row : (row >>> 3).toNat = row.toNat / 8 := Nat.shiftRight_eq_div_pow row.toNat 3
  have high_column : (column >>> 3).toUInt16.toNat = column.toNat / 8 :=
    Nat.shiftRight_eq_div_pow column.toNat 3
  have line := toNat_shifted (row &&& 7) 12 12 rfl (by decide) (by omega)
  have name := toNat_shifted (table &&& 3) 10 10 rfl (by decide) (by omega)
  have tile := toNat_shifted (row >>> 3) 5 5 rfl (by decide) (by omega)
  have first := toNat_or_low ((table &&& 3).toUInt16 <<< 10) 12 line (by omega)
  have upper : ((row &&& 7).toUInt16 <<< 12 ||| (table &&& 3).toUInt16 <<< 10).toNat =
      (row.toNat % 8 * 4 + table.toNat % 4) * 2 ^ 10 := by omega
  have second := toNat_or_low ((row >>> 3).toUInt16 <<< 5) 10 upper (by omega)
  have middle : ((row &&& 7).toUInt16 <<< 12 ||| (table &&& 3).toUInt16 <<< 10 |||
      (row >>> 3).toUInt16 <<< 5).toNat =
      (row.toNat % 8 * 128 + table.toNat % 4 * 32 + row.toNat / 8) * 2 ^ 5 := by omega
  have third := toNat_or_low (column >>> 3).toUInt16 5 middle (by omega)
  rw [scrollWord, third]
  omega

/-- The two halves of an address as one word. -/
def addressWord (high low : UInt8) : UInt16 := (high &&& 0x3F).toUInt16 <<< 8 ||| low.toUInt16

theorem addressWord_toNat (high low : UInt8) :
    (addressWord high low).toNat = high.toNat % 0x40 * 0x100 + low.toNat := by
  have six := toNat_and_byte high 0x3F 6 0 rfl
  have page := toNat_shifted (high &&& 0x3F) 8 8 rfl (by decide) (by omega)
  have joined := toNat_or_low low.toUInt16 8 page (by simpa using low.toNat_lt)
  rw [addressWord, joined, page, UInt8.toNat_toUInt16, six]
  omega

/-- Whatever the next address held, a status read and the two halves of a scroll position set it,
together with the last of the writes to the control register around them. -/
theorem scroll_pair (tame : ppu.Tame) (before between behind : List UInt8) {last : UInt8}
    (h : (before ++ between ++ behind).getLast? = some last) (column row : UInt8) :
    behind.foldl writeControl ((between.foldl writeControl
      ((before.foldl writeControl ppu.readStatus.2).writeScroll column)).writeScroll row) =
    { ppu with
      status := { ppu.status with vblank := false }
      control := ⟨last⟩
      nextAddress := scrollWord column row last
      fineX := column &&& 7
      firstWrite := true } := by
  have start : ppu.readStatus.2.Tame := readStatus_offBeam.tame ppu tame
  have half : (ppu.readStatus.2.writeScroll column).Tame :=
    (writeScroll_offBeam column).tame _ start
  rw [controls_scroll start, ← List.foldl_append, controls_scroll half, ← List.foldl_append,
    controls_last h]
  refine eq_of_next (by rfl) ?_
  have first : ppu.readStatus.2.writeScroll column = _ := write_first rfl (.scroll column)
  have second : (ppu.readStatus.2.writeScroll column).writeScroll row = _ :=
    write_second half.nextAddress rfl (.scroll row)
  have column_lt := column.toNat_lt
  have row_lt := row.toNat_lt
  rw [second, writeControl_next, second_scroll_next, first, first_scroll_next, scrollWord_toNat,
    retable _ (Nat.mod_lt _ (by decide)) (by omega) (Nat.mod_lt _ (by decide))]
  omega

/-- Nothing is left of what the next address held before. -/
theorem address_pair (ppu : Ppu) (high low : UInt8) :
    (ppu.readStatus.2.writeAddress high).writeAddress low =
    { ppu with
      status := { ppu.status with vblank := false }
      address := addressWord high low
      nextAddress := addressWord high low
      firstWrite := true } := by
  have first : ppu.readStatus.2.writeAddress high = _ := write_first rfl (.address high)
  have begun : (ppu.readStatus.2.writeAddress high).nextAddress.toNat =
      high.toNat % 0x40 * 0x100 + ppu.readStatus.2.nextAddress.toNat % 0x100 := by
    rw [first, Half.first, UInt16.toNat_ofNat']
    omega
  have small : (ppu.readStatus.2.writeAddress high).nextAddress < addressEnd := by
    rw [UInt16.lt_iff_toNat_lt, begun]
    change _ < 0x8000
    omega
  have second : (ppu.readStatus.2.writeAddress high).writeAddress low = _ :=
    write_second small rfl (.address low)
  have low_lt := low.toNat_lt
  have whole : addressWord high low =
      .ofNat ((ppu.readStatus.2.writeAddress high).nextAddress.toNat / 0x100 * 0x100 +
        low.toNat) := by
    refine eq_ofNat ?_
    rw [addressWord_toNat, begun]
    omega
  rw [second, Half.second, ← whole]
  rfl

end Ppu

namespace Video

/-! ## Turns -/

/-- Work after which the next half is the first of a pair. -/
def Work.renews : Work → Bool
  | .reset | .serve .readStatus => true
  | _ => false

def Work.isHalf : Work → Bool
  | .serve (.writeScroll _) | .serve (.writeAddress _) => true
  | _ => false

def workAll : List Work → Action Unit
  | [] => pure ()
  | work :: rest => do
    work.run
    workAll rest

variable {video after : Video} {value : Unit}

theorem work_tame (tame : video.ppu.Tame) (work : Work) (h : work.run video = .ok () after) :
    after.ppu.Tame := by
  cases work with
  | dot => exact Ppu.tick_tame tame (dot_eq h).1
  | serve access => exact serve_tame tame access h
  | reset =>
    cases h
    exact video.ppu.reset_inRange.tame
  | rewire memory board =>
    cases h
    exact tame

/-- Every half passes the turn on, and no other work reaches it but what renews it. -/
theorem work_turn {work : Work} (same : work.renews = false) (h : work.run video = .ok () after) :
    after.ppu.firstWrite = (video.ppu.firstWrite ^^ work.isHalf) := by
  have kept : ∀ turn : Bool, turn = (turn ^^ false) := fun turn => (Bool.xor_false turn).symm
  cases work with
  | dot =>
    have programmed := (Ppu.tick_held (dot_eq h).1).1
    exact (congrArg Ppu.Programmed.firstWrite programmed).trans (kept _)
  | reset => cases same
  | rewire memory board =>
    cases h
    exact kept _
  | serve access =>
    cases access with
    | writeScroll written =>
      cases h
      exact (Ppu.write_turn (.scroll written) video.ppu).trans (Bool.xor_true _).symm
    | writeAddress written =>
      cases h
      exact (Ppu.write_turn (.address written) video.ppu).trans (Bool.xor_true _).symm
    | readStatus => cases same
    | readData =>
      unfold Work.run serve at h
      dsimp only at h
      split at h <;> cases h
      obtain ⟨byte, -, result⟩ := Ppu.of_readData_ok ‹_›
      split at result <;> cases result <;> exact kept _
    | writeData written =>
      unfold Work.run serve at h
      dsimp only at h
      split at h <;> cases h
      exact kept _
    | transfer page =>
      cases h
      have same : (video.ppu.transfer page).firstWrite = video.ppu.firstWrite := by
        dsimp only [Ppu.transfer]
        split <;> rfl
      exact same.trans (kept _)
    | writeControl | writeMask | writeOamAddress | readOam | writeOam | takeInterrupt =>
      cases h
      exact kept _

theorem workAll_turn {works : List Work} (same : ∀ work ∈ works, work.renews = false)
    (h : workAll works video = .ok () after) :
    after.ppu.firstWrite = (video.ppu.firstWrite ^^ (works.countP (·.isHalf)).bodd) := by
  induction works generalizing video with
  | nil =>
    cases h
    exact (Bool.xor_false _).symm
  | cons work rest ih =>
    obtain ⟨_, moved, done, h⟩ := of_bind_ok h
    have counted : (rest.countP (·.isHalf) + if work.isHalf = true then 1 else 0).bodd =
        (work.isHalf ^^ (rest.countP (·.isHalf)).bodd) := by
      cases work.isHalf <;> simp
    rw [ih (fun other later => same other (List.mem_cons_of_mem _ later)) h,
      work_turn (same work List.mem_cons_self) done, Bool.xor_assoc, List.countP_cons, counted]

theorem workAll_tame (tame : video.ppu.Tame) {works : List Work}
    (h : workAll works video = .ok () after) : after.ppu.Tame := by
  induction works generalizing video with
  | nil =>
    cases h
    exact tame
  | cons work rest ih =>
    obtain ⟨_, moved, done, h⟩ := of_bind_ok h
    exact ih (work_tame tame work done) h

end Video

namespace Ppu

variable {ppu : Ppu}

/-- What the half of a number does: the odd ones are the first of their pair. -/
def Takes (ppu : Ppu) (number : Nat) : Prop :=
  ∀ half : Half, (half.write ppu = half.first ppu ↔ Odd number) ∧
    (half.write ppu = half.second ppu ↔ Even number)

theorem takes_next (tame : ppu.Tame) {halves : Nat} (turn : ppu.firstWrite = !halves.bodd) :
    ppu.Takes (halves + 1) := by
  intro half
  rw [write_first_iff, write_second_iff tame, turn, Nat.odd_add_one, Nat.even_add_one, Nat.odd_iff,
    Nat.even_iff, Nat.mod_two_of_bodd]
  cases halves.bodd <;> simp

theorem write_tame (tame : ppu.Tame) (half : Half) : (half.write ppu).Tame := by
  cases half with
  | scroll value => exact (writeScroll_offBeam value).tame ppu tame
  | address value => exact (writeAddress_offBeam value).tame ppu tame

theorem halves_take (tame : ppu.Tame) (before : Nat) (turn : ppu.firstWrite = !before.bodd)
    (halves : List Half) :
    (halves.foldl (fun met half => half.write met) ppu).Takes (before + halves.length + 1) := by
  induction halves generalizing ppu before with
  | nil => exact takes_next tame turn
  | cons half rest ih =>
    have passed : (half.write ppu).firstWrite = !(before + 1).bodd := by
      rw [write_turn, turn, Nat.bodd_succ]
    have next := ih (write_tame tame half) (before + 1) passed
    rwa [Nat.add_assoc before, Nat.add_comm 1] at next

/-- What the halves of scroll positions and addresses do to a picture unit, counted from a read of
the status or a reset. The last two say whose turn it is, behind halves alone and behind any work. -/
structure Paired (ppu : Ppu) : Prop where
  scroll : ∀ (before between behind : List UInt8) (last column row : UInt8),
    (before ++ between ++ behind).getLast? = some last →
      behind.foldl writeControl ((between.foldl writeControl
        ((before.foldl writeControl ppu.readStatus.2).writeScroll column)).writeScroll row) =
      { ppu with
        status := { ppu.status with vblank := false }
        control := ⟨last⟩
        nextAddress := scrollWord column row last
        fineX := column &&& 7
        firstWrite := true }
  address : ∀ high low : UInt8, (ppu.readStatus.2.writeAddress high).writeAddress low =
    { ppu with
      status := { ppu.status with vblank := false }
      address := addressWord high low
      nextAddress := addressWord high low
      firstWrite := true }
  halves : ∀ start : Ppu, start = ppu.readStatus.2 ∨ start = ppu.reset → ∀ halves : List Half,
    (halves.foldl (fun met half => half.write met) start).Takes (halves.length + 1)
  works : ∀ start : Ppu, start = ppu.readStatus.2 ∨ start = ppu.reset →
    ∀ memory board (works : List Video.Work) after,
      Video.workAll works ⟨start, memory, board⟩ = .ok () after →
      (∀ work ∈ works, work.renews = false) → after.ppu.Takes (works.countP (·.isHalf) + 1)

theorem works_take (tame : ppu.Tame) (turn : ppu.firstWrite = true) {memory : PictureMemory}
    {board : Board} {works : List Video.Work} {after : Video}
    (h : Video.workAll works ⟨ppu, memory, board⟩ = .ok () after)
    (same : ∀ work ∈ works, work.renews = false) :
    after.ppu.Takes (works.countP (·.isHalf) + 1) := by
  refine takes_next (Video.workAll_tame tame h) ?_
  rw [Video.workAll_turn same h, turn, Bool.true_xor]

theorem renewed_tame (tame : ppu.Tame) {start : Ppu}
    (h : start = ppu.readStatus.2 ∨ start = ppu.reset) :
    start.Tame ∧ start.firstWrite = true := by
  obtain rfl | rfl := h
  · exact ⟨readStatus_offBeam.tame ppu tame, rfl⟩
  · exact ⟨(reset_inRange ppu).tame, rfl⟩

/-- Every picture unit takes scroll positions and addresses as they are written, two halves at a time,
with writes to the control register anywhere between them. Which half is due depends on how many came
since the status was read, and on nothing else that is done. -/
theorem writes_encode (h : Reachable ppu) : Paired ppu where
  scroll before between behind _ column row last :=
    scroll_pair h.tame before between behind last column row
  address := address_pair ppu
  halves start renewed halves := by
    obtain ⟨tame, turn⟩ := renewed_tame h.tame renewed
    have taken := halves_take tame 0 turn halves
    rwa [Nat.zero_add] at taken
  works start renewed memory board works after run same := by
    obtain ⟨tame, turn⟩ := renewed_tame h.tame renewed
    exact works_take tame turn run same

/-- Dot 5 of column 15 and line 6 of row 11 in the third name table. -/
theorem position_encoded : Reachable (powerOn .full) ∧
    (((powerOn .full).readStatus.2.writeControl 2).writeScroll 0x7D).writeScroll 0x5E =
      { powerOn .full with control := ⟨2⟩, nextAddress := 0x696F, fineX := 5 } :=
  ⟨.powerOn .full, (writes_encode (.powerOn .full)).scroll [2] [] [] 2 0x7D 0x5E rfl⟩

end Ppu

end Famicom

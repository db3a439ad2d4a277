import Famicom.Proofs.Console

/-!
# Cut buffers

No value is read off part of its bytes: every reader sees that its buffer ends too early. A layout that
is loaded from cut bytes brings the fields over that are there as a whole, and no other.
-/

namespace Famicom

/-- The buffer ended before a value did. -/
def DecodeError.Truncates (cause : DecodeError) : Prop :=
  ∃ needed remaining, cause = .truncated needed remaining ∧ remaining < needed

namespace Codec

variable {α γ σ τ : Type}

/-- A reader does not look past what it takes. More bytes at the end change neither its answer nor its
complaint, unless the complaint is that there were too few. -/
structure Local (reader : Reader α) : Prop where
  ok {buffer rest : List UInt8} {value : α} (extra : List UInt8) :
    reader buffer = .ok value rest → reader (buffer ++ extra) = .ok value (rest ++ extra)
  error {buffer rest : List UInt8} {cause : DecodeError} (extra : List UInt8) :
    reader buffer = .error cause rest →
      cause.Truncates ∨ ∃ rest', reader (buffer ++ extra) = .error cause rest'

namespace Local

variable {reader : Reader α}

theorem pure (value : α) : Local (Pure.pure value : Reader α) where
  ok extra h := by
    cases h
    rfl
  error _ h := nomatch h

theorem throw (cause : DecodeError) : Local (throw cause : Reader α) where
  ok _ h := nomatch h
  error extra h := by
    cases h
    exact .inr ⟨_, rfl⟩

theorem bind {next : α → Reader γ} (h : Local reader) (hn : ∀ value, Local (next value)) :
    Local (reader >>= next) where
  ok extra hb := by
    obtain ⟨value, mid, hr, hb⟩ := of_bind_ok hb
    rw [bind_ok (h.ok extra hr)]
    exact (hn value).ok extra hb
  error {buffer _ cause} extra hb := by
    cases hr : reader buffer with
    | ok value mid =>
      rw [bind_ok hr] at hb
      rw [bind_ok (h.ok extra hr)]
      exact (hn value).error extra hb
    | error cause' mid =>
      rw [bind_error hr] at hb
      cases hb
      refine (h.error extra hr).imp_right fun ⟨rest', hr'⟩ => ⟨rest', ?_⟩
      exact bind_error hr'

theorem map (h : Local reader) (f : α → γ) : Local (do return f (← reader)) :=
  h.bind fun value => pure (f value)

theorem ite {c : Prop} [Decidable c] {other : Reader α} (ht : Local reader) (hf : Local other) :
    Local (if c then reader else other) := by
  split
  · exact ht
  · exact hf

/-- A value that is cut short is found out. -/
theorem cut {bytes : List UInt8} {value : α} (h : Local reader) (hr : Reads reader bytes value)
    {k : Nat} (hk : k < bytes.length) :
    ∃ cause rest, cause.Truncates ∧ reader (bytes.take k) = .error cause rest := by
  have whole : reader (bytes.take k ++ bytes.drop k) = .ok value [] := by
    have hread := hr []
    rwa [List.append_nil, ← List.take_append_drop k bytes] at hread
  cases hc : reader (bytes.take k) with
  | ok early rest =>
    have hlong := h.ok (bytes.drop k) hc
    rw [whole] at hlong
    have hnone : rest ++ bytes.drop k = [] := by
      injection hlong with _ hrest
      exact hrest.symm
    have hlength := congrArg List.length hnone
    rw [List.length_append, List.length_drop, List.length_nil] at hlength
    omega
  | error cause rest =>
    rcases h.error (bytes.drop k) hc with htrunc | ⟨rest', hlong⟩
    · exact ⟨cause, rest, htrunc, rfl⟩
    · rw [whole] at hlong
      cases hlong

end Local

theorem take_local (n : Nat) : Local (take n) where
  ok {buffer rest value} extra h := by
    unfold take at h ⊢
    split at h
    · rename_i hn
      cases h
      have hlong : n ≤ (buffer ++ extra).length := by
        rw [List.length_append]
        omega
      rw [dif_pos hlong]
      congr 1
      · simp only [List.take_append_of_le_length hn]
      · exact List.drop_append_of_le_length hn
    · cases h
  error {buffer rest cause} extra h := by
    unfold take at h
    split at h
    · cases h
    · cases h
      exact .inl ⟨_, _, rfl, by omega⟩

theorem readNat_local (width : Nat) : Local (readNat width) := (take_local width).map _

namespace Format

@[simp] theorem u8_local : Local u8.read := (readNat_local 1).map _

@[simp] theorem u16_local : Local u16.read := (readNat_local 2).map _

@[simp] theorem u32_local : Local u32.read := (readNat_local 4).map _

@[simp] theorem u64_local : Local u64.read := (readNat_local 8).map _

@[simp] theorem bool_local : Local bool.read := u8_local.map _

@[simp] theorem bytes_local : Local bytes.read :=
  (readNat_local 8).bind fun size => (take_local size).map _

@[simp] theorem memory_local (n : Nat) : Local (memory n).read :=
  (readNat_local 8).bind fun _ => .ite (take_local n) (.throw _)

theorem bytes_length (v : Array UInt8) : (bytes.write v).length = 8 + v.size := by
  simp [bytes, littleEndian_length]

theorem memory_length {n : Nat} (v : Vector UInt8 n) : ((memory n).write v).length = 8 + n := by
  simp [memory, bytes_length]

end Format

@[simp] theorem Field.of_local {format : Format α} (h : Local format.read) (get : σ → α)
    (set : α → σ → σ) : Local (Field.of format get set).read :=
  h.map set

/-! ## Layouts -/

/-- No field looks past its bytes. -/
def Layout.Local (layout : Layout σ) : Prop := ∀ field ∈ layout, Codec.Local field.read

/-- How many bytes reach to the end of a field. -/
def Layout.fieldEnd (layout : Layout σ) (s : σ) (i : Nat) : Nat :=
  (Layout.encode (layout.take (i + 1)) s).length

namespace Layout

variable {s : σ} {field : Field σ} {layout other : Layout σ} {change : σ → σ}

theorem Local.append (h : layout.Local) (ho : other.Local) : Layout.Local (layout ++ other) :=
  List.forall_mem_append.2 ⟨h, ho⟩

theorem Local.within (h : layout.Local) (get? : τ → Option σ) (modify : (σ → σ) → τ → τ) :
    Layout.Local (layout.within get? modify) := by
  intro field hf
  obtain ⟨inner, hi, rfl⟩ := List.mem_map.1 hf
  exact (h inner hi).map modify

theorem encode_cons (field : Field σ) (layout : Layout σ) (s : σ) :
    Layout.encode (field :: layout) s = field.write s ++ layout.encode s :=
  List.flatMap_cons

theorem fieldEnd_cons_zero (field : Field σ) (layout : Layout σ) (s : σ) :
    fieldEnd (field :: layout) s 0 = (field.write s).length := by
  rw [fieldEnd, List.take_succ_cons, List.take_zero, encode_cons]
  exact congrArg List.length (List.append_nil _)

theorem fieldEnd_cons_succ (field : Field σ) (layout : Layout σ) (s : σ) (i : Nat) :
    fieldEnd (field :: layout) s (i + 1) = (field.write s).length + layout.fieldEnd s i := by
  rw [fieldEnd, List.take_succ_cons, encode_cons, List.length_append]
  rfl

theorem fieldEnd_append (front layout : Layout σ) (s : σ) (i : Nat) :
    fieldEnd (front ++ layout) s (front.length + i) =
      (front.encode s).length + layout.fieldEnd s i := by
  unfold fieldEnd
  rw [Nat.add_assoc, List.take_length_add_append, encode_append, List.length_append]

theorem fieldEnd_le (layout : Layout σ) (s : σ) (i : Nat) :
    layout.fieldEnd s i ≤ (layout.encode s).length := by
  have whole := Layout.encode_append (layout.take (i + 1)) (layout.drop (i + 1)) s
  rw [List.take_append_drop] at whole
  rw [whole, List.length_append]
  exact Nat.le_add_right _ _

/-- Loading cut bytes stops at the field in which the cut falls: the `n` fields before it are
brought over. -/
theorem Carries.load_cut (h : layout.Carries s change) (hl : layout.Local) {k : Nat}
    (hk : k < (layout.encode s).length) (target : σ) :
    ∃ n reached cause, (∀ i < layout.length, i < n ↔ layout.fieldEnd s i ≤ k) ∧
      Layout.Carries s (layout.take n) reached ∧ cause.Truncates ∧
      layout.load ((layout.encode s).take k) target = .error cause (reached target) := by
  induction h generalizing k target with
  | nil => cases hk
  | @cons field layout first _ hf hc ih =>
    obtain ⟨hfield, hl⟩ := List.forall_mem_cons.1 hl
    rw [encode_cons, List.length_append] at hk
    rw [encode_cons]
    by_cases hcut : k < (field.write s).length
    · obtain ⟨cause, rest, htrunc, hread⟩ := hfield.cut hf hcut
      refine ⟨0, id, cause, ?_, .nil, htrunc, ?_⟩
      · rintro (_ | i) _
        · rw [fieldEnd_cons_zero]
          omega
        · rw [fieldEnd_cons_succ]
          omega
      · rw [List.take_append_of_le_length (Nat.le_of_lt hcut)]
        unfold Layout.load
        simp only [hread]
        rfl
    · have hwhole : (field.write s).length ≤ k := Nat.not_lt.1 hcut
      obtain ⟨n, reached, cause, hn, hreached, htrunc, hload⟩ :=
        ih hl (k := k - (field.write s).length) (by omega) (first target)
      refine ⟨n + 1, reached ∘ first, cause, ?_, .cons hf hreached, htrunc, ?_⟩
      · rintro (_ | i) hi
        · rw [fieldEnd_cons_zero]
          omega
        · have hin := hn i (Nat.lt_of_succ_lt_succ hi)
          rw [fieldEnd_cons_succ]
          omega
      · rw [List.take_append, List.take_of_length_le hwhole]
        have hread := hf ((layout.encode s).take (k - (field.write s).length))
        unfold Layout.load
        simp only [hread]
        exact hload

theorem Adopts.load_cut {adopt : Nat → σ → σ} (h : layout.Adopts s adopt) (hl : layout.Local)
    {k : Nat} (hk : k < (layout.encode s).length) (target : σ) :
    ∃ n cause, (∀ i < layout.length, i < n ↔ layout.fieldEnd s i ≤ k) ∧ cause.Truncates ∧
      layout.load ((layout.encode s).take k) target = .error cause (adopt n target) := by
  obtain ⟨n, reached, cause, hn, hreached, htrunc, hload⟩ := h.all.load_cut hl hk target
  rw [hreached.unique (h n)] at hload
  exact ⟨n, cause, hn, htrunc, hload⟩

end Layout
end Codec

open Codec

/-! ## Components -/

theorem MainMemory.layout_local : MainMemory.layout.Local := by
  simp [Layout.Local, MainMemory.layout]

theorem PictureMemory.layout_local : PictureMemory.layout.Local := by
  simp [Layout.Local, PictureMemory.layout]

theorem Cpu.layout_local : Cpu.layout.Local := by
  simp [Layout.Local, Cpu.layout]

@[simp] theorem Ppu.phaseField_local : Local phaseField.read := by
  refine Format.u8_local.bind fun code => ?_
  split
  · exact .pure _
  · exact .throw _

@[simp] theorem Ppu.lineSpritesField_local : Local lineSpritesField.read :=
  Format.bytes_local.bind fun _ => .ite (.bind (.throw _) fun _ => .pure _) (.pure _)

theorem Ppu.layout_local : Ppu.layout.Local := by
  simp [Layout.Local, Ppu.layout]

theorem Circuit.layout_local (circuit : Circuit) : circuit.layout.Local := by
  cases circuit with
  | nrom => exact Layout.Local.within (by simp [Layout.Local, Nrom.layout]) _ _
  | uxrom => exact Layout.Local.within (by simp [Layout.Local, Uxrom.layout]) _ _
  | cnrom => exact Layout.Local.within (by simp [Layout.Local, Cnrom.layout]) _ _

theorem Machine.layout_local (m : Machine) : m.layout.Local :=
  ((((MainMemory.layout_local.within _ _).append (PictureMemory.layout_local.within _ _)).append
    (Cpu.layout_local.within _ _)).append (Ppu.layout_local.within _ _)).append
      ((m.bus.board.circuit.layout_local.within _ _).within _ _)

theorem Machine.ram_fieldEnd (m : Machine) : m.layout.fieldEnd m 0 = 0x808 := by
  show (Layout.encode (memoryLayout.take 1) m).length = _
  simp [Layout.encode, memoryLayout, Layout.within, MainMemory.layout, Field.within, Field.of,
    Format.memory_length]

theorem Machine.extendedRam_fieldEnd (m : Machine) :
    m.layout.fieldEnd m 1 = 0x810 + m.bus.memory.extendedRam.size := by
  show (Layout.encode memoryLayout m).length = _
  simp [Layout.encode, memoryLayout, Layout.within, MainMemory.layout, Field.within, Field.of,
    Format.memory_length, Format.bytes_length]
  omega

/-! ## Consoles -/

namespace Console

variable {cartridge : Cartridge} {source target : Console}

/-- The machine that cut bytes leave has the fields that were there as a whole, and all else of its
own. -/
theorem decode_take (hs : source.machine.Storable)
    (hkind : target.machine.bus.board.circuit.SameKind source.machine.bus.board.circuit) {k : Nat}
    (hk : k < source.encode.length) :
    ∃ n cause, (∀ i < source.machine.layout.length,
        i < n ↔ source.machine.layout.fieldEnd source.machine i ≤ k) ∧ cause.Truncates ∧
      target.decode (source.encode.take k) =
        .error cause { target with machine := target.machine.adopt source.machine n } := by
  obtain ⟨n, cause, hn, htrunc, hload⟩ :=
    (Machine.layout_adopts hs).load_cut source.machine.layout_local hk target.machine
  refine ⟨n, cause, hn, htrunc, ?_⟩
  unfold decode encode
  rw [Machine.layout_eq hkind, hload]

/-- Every cut of a state's bytes is found out. What was read before it is there, field by field, and
nothing else of the console has changed. -/
theorem decode_truncated {raw : ByteArray} (himage : Cartridge.ofImage raw = .ok cartridge)
    (hs : Reachable cartridge source) (ht : Reachable cartridge target) {k : Nat}
    (hk : k < source.encode.length) :
    ∃ n needed remaining, (∀ i < source.machine.layout.length,
        i < n ↔ source.machine.layout.fieldEnd source.machine i ≤ k) ∧ remaining < needed ∧
      target.decode (source.encode.take k) = .error (.truncated needed remaining)
        { target with machine := target.machine.adopt source.machine n } := by
  have sound := Cartridge.ofImage_sound himage
  have hsource := (hs.sound sound).machine.devices
  have htarget := (ht.sound sound).machine.devices
  obtain ⟨n, _, hn, ⟨needed, remaining, rfl, hlt⟩, hdecode⟩ := decode_take
    (Machine.storable hsource.stocked) (htarget.board.circuit.sameKind hsource.board.circuit) hk
  exact ⟨n, needed, remaining, hn, hlt, hdecode⟩

/-- With the bytes of its RAM and no more, a console gets the RAM of the other one. -/
theorem polling_truncated : ∃ c needed remaining, insert Image.polling .full = .ok c ∧
    c.decode ((c.poke 0x10 7).encode.take 0x808) = .error (.truncated needed remaining)
      (c.poke 0x10 7) := by
  obtain ⟨c, hc, -⟩ := polling_inserts .full
  have poked : Reachable Image.polling (c.poke 0x10 7) := .feed (.poke 0x10 7) (.insert hc) rfl
  have hram := (c.poke 0x10 7).machine.ram_fieldEnd
  have hextended := (c.poke 0x10 7).machine.extendedRam_fieldEnd
  have hlength := (c.poke 0x10 7).machine.layout.fieldEnd_le (c.poke 0x10 7).machine 1
  have hcut : 0x808 < (c.poke 0x10 7).encode.length := by
    rw [encode]
    omega
  obtain ⟨n, needed, remaining, hn, _, hdecode⟩ :=
    decode_truncated Image.ofImage_pollingImage poked (.insert hc) hcut
  have one : n = 1 := by
    have hfields : 2 ≤ (c.poke 0x10 7).machine.layout.length := Nat.le_add_left _ _
    have first := hn 0 (by omega)
    have second := hn 1 (by omega)
    omega
  have after : { c with machine := c.machine.adopt (c.poke 0x10 7).machine 1 } = c.poke 0x10 7 := by
    obtain ⟨_, ⟨_, ⟨_, _, ⟨_, circuit⟩, _, _, _⟩, _⟩, _⟩ := c
    cases circuit <;> rfl
  rw [one, after] at hdecode
  exact ⟨c, needed, remaining, hc, hdecode⟩

end Console

end Famicom

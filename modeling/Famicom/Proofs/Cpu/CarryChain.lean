import Famicom.Proofs.Bits
import Famicom.Proofs.Codec
import Famicom.Proofs.Cpu.Instruction

/-!
# Arithmetic through the carry

Numbers of any width are added and subtracted a byte at a time, from the lowest to the highest, with
the carry between them. Whatever the width, the bytes that pass through the accumulator spell the
result, and the flags that the last instruction leaves are those of the whole numbers.
-/

namespace Famicom.Cpu

open Codec

/-! ## Numbers in bytes -/

/-- The number that bytes spell in two's complement, lowest byte first. -/
def signed (bytes : List UInt8) : Int :=
  if 2 * ofLittleEndian bytes < 256 ^ bytes.length then ofLittleEndian bytes
  else ofLittleEndian bytes - 256 ^ bytes.length

/-- Some bytes are enough to spell a number in two's complement. -/
def Holds (size : Nat) (value : Int) : Prop := -(256 ^ size) ≤ 2 * value ∧ 2 * value < 256 ^ size

instance (size : Nat) (value : Int) : Decidable (Holds size value) :=
  inferInstanceAs (Decidable (_ ∧ _))

/-- The last of some bytes is the one that the flags describe. -/
def Describes (status : Status) (bytes : List UInt8) : Prop :=
  ∀ byte, bytes.getLast? = some byte →
    (status.zero = true ↔ byte = 0) ∧ (status.negative = true ↔ 0x80 ≤ byte)

/-- Bytes are the sum of two numbers and a carry, up to the carry that the status holds. -/
structure Sums (carry : Bool) (xs ys results : List UInt8) (status : Status) : Prop where
  width : ys.length = xs.length ∧ results.length = xs.length
  sum : ofLittleEndian results + 256 ^ xs.length * status.carry.toNat =
    ofLittleEndian xs + ofLittleEndian ys + carry.toNat
  overflow : status.overflow = true ↔
    ¬Holds xs.length (signed xs + signed ys + carry.toNat)
  last : Describes status results

theorem signed_cons (byte : UInt8) {bytes : List UInt8} (nonempty : bytes ≠ []) :
    signed (byte :: bytes) = byte.toNat + 256 * signed bytes := by
  have small := byte.toNat_lt
  obtain ⟨first, rest, rfl⟩ := List.exists_cons_of_ne_nil nonempty
  unfold signed
  rw [ofLittleEndian]
  generalize ofLittleEndian (first :: rest) = value
  simp only [List.length_cons, Nat.pow_succ, Int.pow_succ]
  have cast : ((256 ^ rest.length : Nat) : Int) = 256 ^ rest.length := Int.natCast_pow 256 _
  rw [← cast]
  generalize 256 ^ rest.length = size
  split <;> split <;> omega

/-- A byte below does not change whether a number has room above it. -/
theorem holds_succ {size : Nat} (positive : size ≠ 0) (byte : UInt8) (value : Int) :
    Holds (size + 1) (byte.toNat + 256 * value) ↔ Holds size value := by
  have small := byte.toNat_lt
  obtain ⟨size, rfl⟩ := Nat.exists_eq_succ_of_ne_zero positive
  unfold Holds
  simp only [Nat.succ_eq_add_one, Int.pow_succ]
  generalize (256 : Int) ^ size = range
  omega

theorem Sums.cons {carry : Bool} {x y result : UInt8} {xs ys results : List UInt8}
    {between status : Status} (first : Sums carry [x] [y] [result] between)
    (rest : Sums between.carry xs ys results status) (nonempty : xs ≠ []) :
    Sums carry (x :: xs) (y :: ys) (result :: results) status := by
  obtain ⟨wide, wide'⟩ := rest.width
  have nonempty' : ys ≠ [] := by
    rintro rfl
    exact nonempty (List.eq_nil_of_length_eq_zero wide.symm)
  have nonempty'' : results ≠ [] := by
    rintro rfl
    exact nonempty (List.eq_nil_of_length_eq_zero wide'.symm)
  have low : result.toNat + 256 * between.carry.toNat = x.toNat + y.toNat + carry.toNat := first.sum
  have high := rest.sum
  refine ⟨⟨congrArg (· + 1) wide, congrArg (· + 1) wide'⟩, ?_, ?_, ?_⟩
  · simp only [ofLittleEndian, List.length_cons, Nat.pow_succ]
    rw [Nat.mul_right_comm]
    omega
  · have total : signed (x :: xs) + signed (y :: ys) + carry.toNat =
        result.toNat + 256 * (signed xs + signed ys + between.carry.toNat) := by
      rw [signed_cons x nonempty, signed_cons y nonempty']
      omega
    rw [rest.overflow, total, List.length_cons, holds_succ]
    exact fun empty => nonempty (List.eq_nil_of_length_eq_zero empty)
  · intro byte last
    rw [List.getLast?_cons_of_ne_nil nonempty''] at last
    exact rest.last byte last

theorem ofLittleEndian_complement (bytes : List UInt8) :
    ofLittleEndian (bytes.map fun byte => ~~~byte) + ofLittleEndian bytes + 1 =
      256 ^ bytes.length := by
  induction bytes with
  | nil => rfl
  | cons byte rest ih =>
    have small := byte.toNat_lt
    have flipped : (~~~byte).toNat = 255 - byte.toNat := UInt8.toNat_not byte
    rw [List.map_cons, ofLittleEndian, ofLittleEndian, flipped, List.length_cons, Nat.pow_succ]
    omega

theorem signed_complement {bytes : List UInt8} (nonempty : bytes ≠ []) :
    signed (bytes.map fun byte => ~~~byte) = -1 - signed bytes := by
  have sum := ofLittleEndian_complement bytes
  obtain ⟨first, rest, rfl⟩ := List.exists_cons_of_ne_nil nonempty
  unfold signed
  rw [List.length_map]
  generalize ofLittleEndian (List.map _ _) = flipped at *
  generalize ofLittleEndian (first :: rest) = value at *
  have cast : ((256 ^ (first :: rest).length : Nat) : Int) = 256 ^ (first :: rest).length :=
    Int.natCast_pow 256 _
  rw [← cast]
  rw [List.length_cons, Nat.pow_succ] at *
  generalize 256 ^ rest.length = size at *
  split <;> split <;> omega

/-! ## One byte -/

theorem sign_eq (byte : UInt8) : (byte &&& 0x80 != 0) = byte.toNat.testBit 7 :=
  and_bit_ne_zero byte rfl

theorem testBit_sign (byte : UInt8) : byte.toNat.testBit 7 = decide (0x80 ≤ byte.toNat) := by
  have small := byte.toNat_lt
  rw [Nat.testBit_eq_decide_div_mod_eq, decide_eq_decide]
  omega

theorem describes_of_last (status : Status) (byte : UInt8) :
    Describes (status.describe byte) [byte] := by
  rintro _ ⟨⟩
  have sign : (byte &&& 0x80 != 0) = true ↔ 0x80 ≤ byte := by
    rw [sign_eq, testBit_sign, decide_eq_true_eq, UInt8.le_iff_toNat_le]
    rfl
  exact ⟨beq_iff_eq, sign⟩

theorem signed_byte (byte : UInt8) :
    signed [byte] = if byte.toNat < 0x80 then (byte.toNat : Int) else byte.toNat - 256 := by
  unfold signed ofLittleEndian ofLittleEndian
  simp only [List.length_cons, List.length_nil]
  split <;> split <;> omega

/-- A sum of two bytes leaves their range just when they share a sign that it has not. -/
theorem addWithCarry_overflow (cpu : Cpu) (value : UInt8) :
    (cpu.addWithCarry value).status.overflow =
      (decide (0x80 ≤ cpu.a.toNat) != decide (0x80 ≤ (cpu.addWithCarry value).a.toNat) &&
        decide (0x80 ≤ cpu.a.toNat) == decide (0x80 ≤ value.toNat)) := by
  have differ : ∀ a b : UInt8, ((a ^^^ b) &&& 0x80 != 0) =
      (decide (0x80 ≤ a.toNat) != decide (0x80 ≤ b.toNat)) := by
    intro a b
    rw [sign_eq, UInt8.toNat_xor, Nat.testBit_xor, testBit_sign, testBit_sign]
  have agree : ((cpu.a ^^^ value) &&& 0x80 == 0) = !((cpu.a ^^^ value) &&& 0x80 != 0) :=
    (Bool.not_not _).symm
  show ((cpu.a ^^^ (cpu.addWithCarry value).a) &&& 0x80 != 0 && (cpu.a ^^^ value) &&& 0x80 == 0) = _
  rw [agree, differ, differ]
  simp only [bne, Bool.not_not]

theorem addWithCarry_sum (cpu : Cpu) (value : UInt8) :
    (cpu.addWithCarry value).a.toNat + 256 * (cpu.addWithCarry value).status.carry.toNat =
      cpu.a.toNat + value.toNat + cpu.status.carry.toNat := by
  have ha := cpu.a.toNat_lt
  have hv := value.toNat_lt
  have carried : (if cpu.status.carry then 1 else 0 : UInt16).toNat = cpu.status.carry.toNat := by
    cases cpu.status.carry <;> rfl
  have one := Bool.toNat_le cpu.status.carry
  unfold addWithCarry
  dsimp only
  generalize total : cpu.a.toUInt16 + value.toUInt16 + (if cpu.status.carry then 1 else 0) = sum
  have wide : sum.toNat = cpu.a.toNat + value.toNat + cpu.status.carry.toNat := by
    rw [← total, UInt16.toNat_add, UInt16.toNat_add, UInt8.toNat_toUInt16, UInt8.toNat_toUInt16,
      carried]
    omega
  have beyond : sum > 0xFF ↔ 255 < sum.toNat := UInt16.lt_iff_toNat_lt
  rw [UInt16.toNat_toUInt8]
  by_cases large : 255 < sum.toNat
  · rw [decide_eq_true (beyond.2 large), Bool.toNat_true]
    omega
  · rw [decide_eq_false (mt beyond.1 large), Bool.toNat_false]
    omega

theorem addWithCarry_sums (cpu : Cpu) (value : UInt8) :
    Sums cpu.status.carry [cpu.a] [value] [(cpu.addWithCarry value).a]
      (cpu.addWithCarry value).status := by
  have sum := addWithCarry_sum cpu value
  refine ⟨⟨rfl, rfl⟩, sum, ?_, ?_⟩
  · have ha := cpu.a.toNat_lt
    have hv := value.toNat_lt
    have hr := (cpu.addWithCarry value).a.toNat_lt
    have one := Bool.toNat_le cpu.status.carry
    have one' := Bool.toNat_le (cpu.addWithCarry value).status.carry
    rw [addWithCarry_overflow]
    simp only [signed_byte, Holds, List.length_cons, List.length_nil, Bool.and_eq_true, bne_iff_ne,
      beq_iff_eq, ne_eq, decide_eq_decide]
    split <;> split <;> omega
  · intro byte last
    exact describes_of_last cpu.status _ byte last

/-! ## Programs that read -/

/-- The program from the program counter on performs these operations, which find these bytes. -/
def FlatMemory.Lists (memory : FlatMemory) (cpu : Cpu) : List (Operation × UInt8) → Prop
  | [] => True
  | (operation, byte) :: rest => ∃ opcode, decode? (memory.fetch cpu.pc) = some opcode ∧
      opcode.operation = operation ∧
      memory.fetch (memory.effectiveAddress cpu opcode.mode) = byte ∧
      memory.Lists { cpu with pc := cpu.pc + UInt16.ofNat opcode.length } rest

/-- Work on the registers that takes a byte in and moves no index. -/
structure Accumulates (f : Cpu → UInt8 → Cpu) : Prop where
  apart : ∀ byte, Apart (f · byte)
  x : ∀ cpu byte, (f cpu byte).x = cpu.x
  y : ∀ cpu byte, (f cpu byte).y = cpu.y

theorem load_accumulates : Accumulates fun cpu byte => cpu.setRegister byte .a :=
  ⟨fun _ _ _ _ _ => rfl, fun _ _ => rfl, fun _ _ => rfl⟩

theorem combine_accumulates (f : Alu) : Accumulates fun cpu byte => cpu.combine f byte := by
  refine ⟨combine_apart f, ?_, ?_⟩ <;> intros <;> cases f <;> rfl

section
variable {core after : Core FlatMemory} {memory memory' : FlatMemory} {cpu cpu' : Cpu}

theorem effectiveAddress_congr (fetch : ∀ place, memory'.fetch place = memory.fetch place)
    (pc : cpu'.pc = cpu.pc) (x : cpu'.x = cpu.x) (y : cpu'.y = cpu.y) (mode : Mode) :
    memory'.effectiveAddress cpu' mode = memory.effectiveAddress cpu mode := by
  simp only [FlatMemory.effectiveAddress, FlatMemory.pointerAt, FlatMemory.wordAt, fetch, pc, x, y]

theorem FlatMemory.Lists.congr {program : List (Operation × UInt8)} (h : memory.Lists cpu program)
    (fetch : ∀ place, memory'.fetch place = memory.fetch place)
    (pc : cpu'.pc = cpu.pc) (x : cpu'.x = cpu.x) (y : cpu'.y = cpu.y) :
    memory'.Lists cpu' program := by
  induction program generalizing cpu cpu' with
  | nil => trivial
  | cons entry rest ih =>
    obtain ⟨operation, byte⟩ := entry
    obtain ⟨opcode, known, is, found, behind⟩ := h
    refine ⟨opcode, ?_, is, ?_, ?_⟩
    · rw [fetch, pc]
      exact known
    · rw [effectiveAddress_congr fetch pc x y, fetch]
      exact found
    · exact ih behind (congrArg (· + UInt16.ofNat opcode.length) pc) x y

/-- Operations are over, and the program goes on behind them. -/
structure Followed (core : Core FlatMemory) (count : Nat) (registers : Registers)
    (program : List (Operation × UInt8)) (after : Core FlatMemory) : Prop where
  run : instructions count core = .ok () after
  registers : after.cpu.registers = registers
  lists : after.bus.Lists after.cpu program
  due : after.cpu.pending ≤ 1
  cycles : after.cpu.cycles.toNat ≤ core.cpu.cycles.toNat + longestWait * count

theorem listed_followed {operation : Operation} {f : Cpu → UInt8 → Cpu} (accumulates : Accumulates f)
    (consumes : ∀ mode, perform (β := FlatMemory) mode operation = consume mode f) {byte : UInt8}
    {rest : List (Operation × UInt8)} (due : core.cpu.pending ≤ 1)
    (listed : core.bus.Lists core.cpu ((operation, byte) :: rest))
    (room : core.cpu.cycles.toNat + longestWait < UInt64.size) :
    ∃ after, Followed core 1 (f core.cpu byte).registers rest after := by
  obtain ⟨opcode, known, rfl, found, behind⟩ := listed
  obtain ⟨after, finished⟩ := consume_finishes accumulates.apart (consumes opcode.mode) due known room
  rw [found] at finished
  have x : after.cpu.x = core.cpu.x :=
    (congrArg Registers.x finished.registers).trans (accumulates.x core.cpu byte)
  have y : after.cpu.y = core.cpu.y :=
    (congrArg Registers.y finished.registers).trans (accumulates.y core.cpu byte)
  have lists : after.bus.Lists after.cpu rest := behind.congr finished.fetch finished.pc x y
  have cycles := finished.cycles
  exact ⟨after, (bind_ok finished.run).trans rfl, finished.registers, lists, finished.due,
    by rwa [Nat.mul_one]⟩

theorem Followed.trans {n m : Nat} {registers registers' : Registers}
    {program program' : List (Operation × UInt8)} {middle : Core FlatMemory}
    (first : Followed core n registers program middle)
    (second : Followed middle m registers' program' after) :
    Followed core (n + m) registers' program' after := by
  have sum := Nat.le_trans second.cycles (Nat.add_le_add_right first.cycles (longestWait * m))
  rw [Nat.add_assoc, ← Nat.mul_add] at sum
  exact ⟨(instructions_add m first.run).trans second.run, second.registers, second.lists,
    second.due, sum⟩

end

/-! ## Byte after byte -/

/-- The two ways to combine whole numbers. -/
inductive Arithmetic
  | addition
  | subtraction
deriving DecidableEq, Repr

namespace Arithmetic

/-- The carry with which the lowest byte starts. -/
def carryIn : Arithmetic → Bool
  | addition => false
  | subtraction => true

def alu : Arithmetic → Alu
  | addition => .adc
  | subtraction => .sbc

/-- The byte that is added in fact. -/
def addend : Arithmetic → UInt8 → UInt8
  | addition, byte => byte
  | subtraction, byte => ~~~byte

def result : Arithmetic → Int → Int → Int
  | addition, x, y => x + y
  | subtraction, x, y => x - y

/-- What the carry tells behind the highest byte. -/
def Carries (size x y : Nat) : Arithmetic → Prop
  | addition => 256 ^ size ≤ x + y
  | subtraction => y ≤ x

/-- Loads a byte of the one number and combines it with that of the other, from the lowest bytes to
the highest. -/
def program (kind : Arithmetic) (pairs : List (UInt8 × UInt8)) : List (Operation × UInt8) :=
  pairs.flatMap fun (x, y) => [(.load .a, x), (.alu kind.alu, y)]

/-- Bytes and flags are those that two numbers result in. -/
structure Exact (kind : Arithmetic) (xs ys results : List UInt8) (status : Status) : Prop where
  width : results.length = xs.length
  result : (ofLittleEndian results : Int) =
    kind.result (ofLittleEndian xs) (ofLittleEndian ys) % 256 ^ xs.length
  carry : status.carry = true ↔ kind.Carries xs.length (ofLittleEndian xs) (ofLittleEndian ys)
  overflow : status.overflow = true ↔ ¬Holds xs.length (kind.result (signed xs) (signed ys))
  last : Describes status results

end Arithmetic

/-- Bytes stand in the accumulator one after another, two instructions apart. -/
def Accumulated (core : Core FlatMemory) (first : Nat) (bytes : List UInt8) : Prop :=
  ∀ i byte, bytes[i]? = some byte →
    ∃ after, instructions (2 * i + first) core = .ok () after ∧ after.cpu.a = byte

section
variable {core after : Core FlatMemory}

theorem Accumulated.behind {count first : Nat} {bytes : List UInt8}
    (h : Accumulated after first bytes) (run : instructions count core = .ok () after) :
    Accumulated core (count + first) bytes := by
  intro i byte stands
  obtain ⟨later, run', a⟩ := h i byte stands
  refine ⟨later, ?_, a⟩
  rw [← run', ← instructions_add (2 * i + first) run]
  congr 1
  omega

variable (kind : Arithmetic)

theorem combine_addend (cpu : Cpu) (byte : UInt8) :
    cpu.combine kind.alu byte = cpu.addWithCarry (kind.addend byte) := by
  cases kind <;> rfl

theorem pair_followed {x y : UInt8} {rest : List (Operation × UInt8)} (due : core.cpu.pending ≤ 1)
    (listed : core.bus.Lists core.cpu ((.load .a, x) :: (.alu kind.alu, y) :: rest))
    (room : core.cpu.cycles.toNat + longestWait * 2 < UInt64.size) :
    ∃ after,
      Followed core 2 ((core.cpu.setRegister x .a).addWithCarry (kind.addend y)).registers rest
        after := by
  obtain ⟨middle, loaded⟩ := listed_followed load_accumulates (fun _ => rfl) due listed (by omega)
  have spent := loaded.cycles
  obtain ⟨after, combined⟩ := listed_followed (combine_accumulates kind.alu) (fun _ => rfl)
    loaded.due loaded.lists (by omega)
  rw [(combine_apart kind.alu y).congr loaded.registers, combine_addend] at combined
  exact ⟨after, loaded.trans combined⟩

/-- What two instructions make of a pair of bytes is one step of the sum. -/
theorem Followed.sums {x y : UInt8} {rest : List (Operation × UInt8)}
    (h : Followed core 2 ((core.cpu.setRegister x .a).addWithCarry (kind.addend y)).registers rest
      after) :
    Sums core.cpu.status.carry [x] [kind.addend y] [after.cpu.a] after.cpu.status := by
  have a : after.cpu.a = _ := congrArg Registers.a h.registers
  have status : after.cpu.status = _ := congrArg Registers.status h.registers
  rw [a, status]
  exact addWithCarry_sums (core.cpu.setRegister x .a) (kind.addend y)

theorem chain_sums {pairs : List (UInt8 × UInt8)} (nonempty : pairs ≠ []) (due : core.cpu.pending ≤ 1)
    (listed : core.bus.Lists core.cpu (kind.program pairs))
    (room : core.cpu.cycles.toNat + longestWait * (2 * pairs.length) < UInt64.size) :
    ∃ results last, Accumulated core 2 results ∧
      instructions (2 * pairs.length) core = .ok () last ∧
      Sums core.cpu.status.carry (pairs.map Prod.fst)
        ((pairs.map Prod.snd).map kind.addend) results last.cpu.status := by
  induction pairs generalizing core with
  | nil => exact absurd rfl nonempty
  | cons pair rest ih =>
    obtain ⟨x, y⟩ := pair
    have step : longestWait * (2 * ((x, y) :: rest).length) =
        longestWait * 2 + longestWait * (2 * rest.length) := by
      rw [← Nat.mul_add, List.length_cons]
      congr 1
      omega
    obtain ⟨after, first⟩ := pair_followed kind due listed (by omega)
    have here : Accumulated core 2 [after.cpu.a] := by
      intro i byte held
      obtain ⟨rfl, rfl⟩ : i = 0 ∧ after.cpu.a = byte := by simpa [List.getElem?_singleton] using held
      exact ⟨after, first.run, rfl⟩
    cases rest with
    | nil => exact ⟨[after.cpu.a], after, here, first.run, first.sums⟩
    | cons pair rest =>
      have spent := first.cycles
      obtain ⟨results, last, held, run, sums⟩ := ih (List.cons_ne_nil _ _) first.due first.lists
        (by omega)
      refine ⟨after.cpu.a :: results, last, ?_, ?_, first.sums.cons sums (List.cons_ne_nil _ _)⟩
      · intro i byte stands
        cases i with
        | zero => exact here 0 byte stands
        | succ i =>
          have next : 2 * (i + 1) + 2 = 2 * i + (2 + 2) := by omega
          rw [next]
          exact held.behind first.run i byte stands
      · rw [← run, ← instructions_add _ first.run]
        congr 1
        rw [List.length_cons]
        omega

theorem eq_emod {size value total : Int} (turns : Int) (h : total = value + size * turns)
    (least : 0 ≤ value) (most : value < size) : value = total % size := by
  rw [h, Int.add_mul_emod_self_left, Int.emod_eq_of_lt least most]

/-- A sum that starts with the right carry is the result on whole numbers. -/
theorem Sums.exact {xs ys results : List UInt8} {status : Status}
    (h : Sums kind.carryIn xs (ys.map kind.addend) results status) (nonempty : xs ≠ []) :
    kind.Exact xs ys results status := by
  have width := h.width.1
  rw [List.length_map] at width
  have nonempty' : ys ≠ [] := by
    rintro rfl
    exact nonempty (List.eq_nil_of_length_eq_zero width.symm)
  have sum := h.sum
  have hx := ofLittleEndian_lt xs
  have hr := ofLittleEndian_lt results
  rw [h.width.2] at hr
  have cast : ((256 ^ xs.length : Nat) : Int) = 256 ^ xs.length := Int.natCast_pow 256 _
  have least := Int.natCast_nonneg (ofLittleEndian results)
  have most : (ofLittleEndian results : Int) < 256 ^ xs.length := by
    rw [← cast]
    exact Int.ofNat_lt.2 hr
  cases kind with
  | addition =>
    have same : ys.map Arithmetic.addition.addend = ys := List.map_id ys
    rw [same] at sum
    have total : (ofLittleEndian xs + ofLittleEndian ys : Int) =
        ofLittleEndian results + 256 ^ xs.length * (status.carry.toNat : Int) := by
      rw [← cast]
      exact_mod_cast sum.symm
    refine ⟨h.width.2, eq_emod _ total least most, ?_, ?_, h.last⟩
    · show status.carry = true ↔ 256 ^ xs.length ≤ ofLittleEndian xs + ofLittleEndian ys
      revert sum
      cases status.carry <;> simp [Arithmetic.carryIn] <;> omega
    · rw [h.overflow, same]
      simp [Arithmetic.carryIn, Arithmetic.result]
  | subtraction =>
    have flipped := ofLittleEndian_complement ys
    rw [width] at flipped
    have same : ys.map Arithmetic.subtraction.addend = ys.map fun byte => ~~~byte := rfl
    rw [same] at sum
    have total : (ofLittleEndian xs - ofLittleEndian ys : Int) =
        ofLittleEndian results + 256 ^ xs.length * ((status.carry.toNat : Int) - 1) := by
      rw [Int.mul_sub, ← cast]
      have carried : Arithmetic.subtraction.carryIn.toNat = 1 := rfl
      rw [carried] at sum
      omega
    refine ⟨h.width.2, eq_emod _ total least most, ?_, ?_, h.last⟩
    · show status.carry = true ↔ ofLittleEndian ys ≤ ofLittleEndian xs
      revert sum
      cases status.carry <;> simp [Arithmetic.carryIn] <;> omega
    · rw [h.overflow, same, signed_complement nonempty']
      have carried : signed xs + (-1 - signed ys) + (Arithmetic.subtraction.carryIn.toNat : Int) =
          signed xs - signed ys := by
        simp only [Arithmetic.carryIn, Bool.toNat_true]
        omega
      rw [carried]
      rfl

theorem decode?_carry {code : UInt8} {opcode : Opcode} {value : Bool}
    (known : decode? code = some opcode) (is : opcode.operation = .setFlag .carry value) :
    opcode.mode = .implied := by
  have implied := decode?_mem (p := fun opcode => ∀ value,
    opcode.operation = .setFlag .carry value → opcode.mode = .implied) (by decide +kernel) known
  exact implied value is

theorem carry_followed {value : Bool} {program : List (Operation × UInt8)}
    (here : core.AtOperation (.setFlag .carry value))
    (listed : core.bus.Lists { core.cpu with pc := core.cpu.pc + 1 } program)
    (room : core.cpu.cycles.toNat + longestWait < UInt64.size) :
    ∃ after, Followed core 1
      { core.cpu.registers with status := core.cpu.status.set value .carry } program after := by
  obtain ⟨due, opcode, known, is⟩ := here
  have mode := decode?_carry known is
  have performed : perform opcode.mode opcode.operation (core.due.fetched opcode core.bus) =
      .ok (.next (charge false)) ⟨{ core.due.cpu with
          pc := core.cpu.pc + 1, status := core.cpu.status.set value .carry },
        core.bus, core.trace.push (.instruction core.due.cpu opcode)⟩ := by
    rw [is]
    rfl
  obtain ⟨after, finished⟩ := instruction_finishes due known performed rfl room
  have pc : after.cpu.pc = core.cpu.pc + 1 := by
    rw [finished.pc, Opcode.length, mode]
    rfl
  have lists : after.bus.Lists after.cpu program := listed.congr finished.fetch pc
    (congrArg Registers.x finished.registers) (congrArg Registers.y finished.registers)
  have cycles := finished.cycles
  exact ⟨after, (bind_ok finished.run).trans rfl, finished.registers, lists, finished.due,
    by rwa [Nat.mul_one]⟩

/-- Whole numbers of any width are added and subtracted exactly, wherever their bytes lie and in any
mode. Behind the last byte carry and overflow tell whether the whole result fits, unsigned and
signed; zero and negative speak of this byte alone. -/
theorem arithmetic_exact {pairs : List (UInt8 × UInt8)} (nonempty : pairs ≠ [])
    (start : core.AtOperation (.setFlag .carry kind.carryIn))
    (listed : core.bus.Lists { core.cpu with pc := core.cpu.pc + 1 } (kind.program pairs))
    (room : core.cpu.cycles.toNat + longestWait * (2 * pairs.length + 1) < UInt64.size) :
    ∃ results last, Accumulated core 3 results ∧
      instructions (2 * pairs.length + 1) core = .ok () last ∧
      kind.Exact (pairs.map Prod.fst) (pairs.map Prod.snd) results last.cpu.status := by
  rw [Nat.mul_succ] at room
  obtain ⟨ready, first⟩ := carry_followed start listed (by omega)
  have spent := first.cycles
  obtain ⟨results, last, held, run, sums⟩ := chain_sums kind nonempty first.due first.lists (by omega)
  have carry : ready.cpu.status.carry = kind.carryIn :=
    congrArg (·.status.carry) first.registers
  rw [carry] at sums
  refine ⟨results, last, held.behind first.run, ?_, sums.exact kind ?_⟩
  · rw [← run, ← instructions_add _ first.run, Nat.add_comm]
  · exact fun empty => nonempty (List.map_eq_nil_iff.1 empty)

end

/-- A core at a program that adds 1 to $7FFF. -/
def beforeSum : Core FlatMemory :=
  ⟨.powerOn, FlatMemory.blank.lay 0 [0x18, 0xA9, 0xFF, 0x69, 0x01, 0xA9, 0x7F, 0x69, 0x00], .fresh⟩

theorem beforeSum_lists : beforeSum.bus.Lists { beforeSum.cpu with pc := 1 }
    (Arithmetic.addition.program [(0xFF, 0x01), (0x7F, 0x00)]) := by
  have load : decode? 0xA9 = some ⟨.load .a, .immediate, 2, 2, true⟩ := by decide +kernel
  have add : decode? 0x69 = some ⟨.alu .adc, .immediate, 2, 2, true⟩ := by decide +kernel
  refine ⟨⟨.load .a, .immediate, 2, 2, true⟩, ?_, rfl, ?_, ⟨.alu .adc, .immediate, 2, 2, true⟩, ?_, rfl, ?_,
    ⟨.load .a, .immediate, 2, 2, true⟩, ?_, rfl, ?_, ⟨.alu .adc, .immediate, 2, 2, true⟩, ?_, rfl, ?_,
    trivial⟩
  all_goals simp [beforeSum, FlatMemory.lay, FlatMemory.fetch_poke, FlatMemory.effectiveAddress, load,
    add, Opcode.length, Mode.operandBytes]

theorem sum_overflows : [((0xFF : UInt8), (0x01 : UInt8)), (0x7F, 0x00)] ≠ [] ∧
    beforeSum.AtOperation (.setFlag .carry false) ∧
    beforeSum.bus.Lists { beforeSum.cpu with pc := 1 }
      (Arithmetic.addition.program [(0xFF, 0x01), (0x7F, 0x00)]) ∧
    beforeSum.cpu.cycles.toNat + longestWait * 5 < UInt64.size ∧
    ∃ results last, instructions 5 beforeSum = .ok () last ∧ ofLittleEndian results = 0x8000 ∧
      last.cpu.status.overflow = true := by
  have code : decode? (beforeSum.bus.fetch 0) = some ⟨.setFlag .carry false, .implied, 1, 2, true⟩ := by
    have clear : beforeSum.bus.fetch 0 = 0x18 := by
      simp [beforeSum, FlatMemory.lay, FlatMemory.fetch_poke]
    rw [clear]
    decide +kernel
  have start : beforeSum.AtOperation (.setFlag .carry false) := ⟨by decide, _, code, rfl⟩
  have room : beforeSum.cpu.cycles.toNat + longestWait * 5 < UInt64.size := by decide
  obtain ⟨results, last, _, run, exactly⟩ := arithmetic_exact .addition (List.cons_ne_nil _ _) start
    beforeSum_lists room
  refine ⟨List.cons_ne_nil _ _, start, beforeSum_lists, room, results, last, run, ?_, ?_⟩
  · exact Int.ofNat_inj.1 (exactly.result.trans (by decide))
  · exact exactly.overflow.2 (by decide)

end Famicom.Cpu

import Famicom.Proofs.TraceLog
import Famicom.Trace

/-!
# How a log reads

The text of an event, and of a whole log with a number before each line. What a numeral is follows
from its digits alone, however it was printed.
-/

namespace Famicom

/-! ## Numerals -/

/-- How a digit is written. -/
def figure (digit : Nat) : Char := "0123456789ABCDEF".toList.getD digit ' '

/-- The number that digits come to, the highest of them first. -/
def spelled (base : Nat) (digits : List Nat) : Nat :=
  digits.foldl (fun sum digit => sum * base + digit) 0

/-- Digits of a number: as many as asked for, or more of which the first is not zero. -/
structure Spells (base width n : Nat) (digits : List Nat) : Prop where
  below : ∀ digit ∈ digits, digit < base
  value : spelled base digits = n
  enough : width ≤ digits.length
  tight : width < digits.length → digits.head? ≠ some 0

/-- The text of a number in some base, with zeros in front up to a width. -/
def Numeral (base width n : Nat) (text : String) : Prop :=
  ∃ digits, Spells base width n digits ∧ text.toList = digits.map figure

variable {base width n : Nat} {digits : List Nat}

theorem spelled_append (base : Nat) (digits : List Nat) (last : Nat) :
    spelled base (digits ++ [last]) = spelled base digits * base + last := by
  rw [spelled, List.foldl_append]
  rfl

theorem spelled_padded (base zeros : Nat) (digits : List Nat) :
    spelled base (List.replicate zeros 0 ++ digits) = spelled base digits := by
  induction zeros with
  | zero => rfl
  | succ zeros ih =>
    rw [List.replicate_succ, List.cons_append, spelled, List.foldl_cons, Nat.zero_mul]
    exact ih

theorem toDigits_spells (two : 1 < base) (n : Nat) :
    ∃ digits, Spells base 1 n digits ∧ Nat.toDigits base n = digits.map Nat.digitChar := by
  induction n using Nat.strongRecOn with
  | ind n ih =>
    by_cases small : n < base
    · refine ⟨[n], ⟨?_, ?_, Nat.le_refl 1, fun less => absurd less (Nat.lt_irrefl 1)⟩,
        Nat.toDigits_of_lt_base small⟩
      · simpa using small
      · simp [spelled]
    · obtain ⟨digits, spells, written⟩ := ih (n / base) (Nat.div_lt_self (by omega) two)
      refine ⟨digits ++ [n % base], ⟨?_, ?_, ?_, ?_⟩, ?_⟩
      · intro digit member
        rcases List.mem_append.1 member with before | last
        · exact spells.below digit before
        · rw [List.mem_singleton.1 last]
          exact Nat.mod_lt n (by omega)
      · rw [spelled_append, spells.value]
        exact Nat.div_add_mod' n base
      · simp
      · -- The digits before the last come to at least one, so they do not start with a zero.
        intro _
        have positive : 0 < n / base := Nat.div_pos (by omega) (by omega)
        have value := spells.value
        have enough := spells.enough
        cases digits with
        | nil => exact absurd enough (by decide)
        | cons first rest =>
          intro zero
          obtain rfl : first = 0 := by simpa using zero
          cases rest with
          | nil =>
            rw [← value] at positive
            exact absurd positive (by simp [spelled])
          | cons second rest => exact spells.tight (by simp) rfl
      · rw [Nat.toDigits_of_base_le two (by omega), written, List.map_append]
        rfl

/-- Zeros in front change nothing but the width. -/
theorem Spells.padded (h : Spells base 1 n digits) (two : 1 < base) (one : 1 ≤ width) :
    Spells base width n (List.replicate (width - digits.length) 0 ++ digits) where
  below := by
    intro digit member
    rcases List.mem_append.1 member with zero | listed
    · rw [List.eq_of_mem_replicate zero]
      omega
    · exact h.below digit listed
  value := (spelled_padded base _ digits).trans h.value
  enough := by
    rw [List.length_append, List.length_replicate]
    omega
  tight := by
    rw [List.length_append, List.length_replicate]
    intro more
    have zero : width - digits.length = 0 := by omega
    rw [zero]
    exact h.tight (by omega)

theorem figure_upper : ∀ digit < 16, (Nat.digitChar digit).toUpper = figure digit := by decide

theorem figure_decimal : ∀ digit < 10, Nat.digitChar digit = figure digit := by decide

theorem upper_numeral (one : 1 ≤ width) (n : Nat) : Numeral 16 width n (Hex.upper width n) := by
  obtain ⟨digits, spells, written⟩ := toDigits_spells (by decide : 1 < 16) n
  refine ⟨_, spells.padded (by decide) one, ?_⟩
  rw [Hex.upper, String.toList_ofList, Hex.digits, written, List.length_map, List.map_append,
    List.map_append, List.map_replicate, List.map_replicate, List.map_map]
  congr 1
  exact List.map_congr_left fun digit member => figure_upper digit (spells.below digit member)

theorem pushn_toList (c : Char) (count : Nat) : ("".pushn c count).toList = List.replicate count c := by
  rw [String.pushn_eq_repeat_push]
  induction count with
  | zero => rfl
  | succ count ih =>
    rw [Nat.repeat, String.toList_push, ih, List.replicate_succ']

/-- A decimal numeral with zeros in front. -/
theorem decimal_numeral (one : 1 ≤ width) (n : Nat) :
    Numeral 10 width n ("".pushn '0' (width - (toString n).length) ++ toString n) := by
  obtain ⟨digits, spells, written⟩ := toDigits_spells (by decide : 1 < 10) n
  have text : (toString n).toList = digits.map figure := by
    rw [Nat.toString_eq_repr, Nat.toList_repr, written]
    exact List.map_congr_left fun digit member => figure_decimal digit (spells.below digit member)
  refine ⟨_, spells.padded (by decide) one, ?_⟩
  rw [String.toList_append, pushn_toList, ← String.length_toList, text, List.length_map,
    List.map_append, List.map_replicate]
  rfl

theorem toString_numeral (n : Nat) : Numeral 10 1 n (toString n) := by
  have numeral := decimal_numeral (Nat.le_refl 1) n
  have long : 1 ≤ (toString n).length := Nat.length_repr_pos
  rw [Nat.sub_eq_zero_of_le long] at numeral
  exact numeral

/-! ## Lines -/

/-- How an event reads: the address of an instruction in four hexadecimal digits, each register in
two, and the cycles in decimal. -/
inductive Event.Reads : Event → String → Prop
  | instruction {cpu : Cpu} {opcode : Cpu.Opcode} {pc a x y p sp cycles : String} :
      Numeral 16 4 cpu.pc.toNat pc → Numeral 16 2 cpu.a.toNat a → Numeral 16 2 cpu.x.toNat x →
      Numeral 16 2 cpu.y.toNat y → Numeral 16 2 cpu.status.toByte.toNat p →
      Numeral 16 2 cpu.sp.toNat sp → Numeral 10 1 cpu.cycles.toNat cycles →
      Reads (.instruction cpu opcode)
        (s!"PC:{pc} {opcode.name} A:{a} X:{x} Y:{y} " ++ s!"P:{p} SP:{sp} CYC:{cycles}")
  | nmi : Reads (.interrupt .nmi) "[CPU] interrupt Nmi"
  | irq : Reads (.interrupt .irq) "[CPU] interrupt Irq"
  | brk : Reads (.interrupt .brk) "[CPU] interrupt Brk"
  | frameInterrupt : Reads .frameInterrupt "[PPU] NMI raised"

theorem Event.line_reads (event : Event) : event.Reads event.line := by
  cases event with
  | instruction cpu opcode =>
    have byte (v : UInt8) : Numeral 16 2 v.toNat (Hex.upper 2 v.toNat) :=
      upper_numeral (by decide) _
    exact .instruction (upper_numeral (by decide) cpu.pc.toNat) (byte cpu.a) (byte cpu.x)
      (byte cpu.y) (byte cpu.status.toByte) (byte cpu.sp) (toString_numeral cpu.cycles.toNat)
  | interrupt kind =>
    cases kind with
    | nmi => exact .nmi
    | irq => exact .irq
    | brk => exact .brk
  | frameInterrupt => exact .frameInterrupt

/-! ## Dumps -/

/-- A dump from a number on: each event on a line of its own, behind six digits that count. -/
inductive Numbered : Nat → List Event → String → Prop
  | done {index : Nat} : Numbered index [] ""
  | line {index : Nat} {event : Event} {events : List Event} {number line text : String}
      (numeral : Numeral 10 6 index number) (reads : event.Reads line)
      (behind : Numbered (index + 1) events text) :
      Numbered index (event :: events) (number ++ " " ++ line ++ "\n" ++ text)

theorem numbered_lines (index : Nat) (events : List Event) :
    Numbered index events (String.join ((events.map Event.line).mapIdx fun place line =>
      TraceLog.numberLine (index + place) line)) := by
  induction events generalizing index with
  | nil => exact .done
  | cons event events ih =>
    have behind := ih (index + 1)
    have first := Numbered.line (decimal_numeral (by decide) index) event.line_reads behind
    rw [List.map_cons, List.mapIdx_cons, String.join_cons]
    simpa [TraceLog.numberLine, Nat.add_assoc, Nat.add_comm 1] using first

/-- The dump of a log numbers its events from zero. -/
theorem dump_numbered (log : Trace) : Numbered 0 log.toList (log.map Event.line).dump := by
  have lines := numbered_lines 0 log.toList
  simp only [Nat.zero_add] at lines
  rw [TraceLog.dump, TraceLog.map_toList]
  exact lines

example : ({ capacity := 2, entries := #["STA", "JMP"] } : TraceLog String).dump =
    "000000 STA\n000001 JMP\n" := by decide

end Famicom

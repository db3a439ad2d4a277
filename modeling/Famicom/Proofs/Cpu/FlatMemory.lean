import Famicom.Cpu.Execute
import Famicom.Cpu.FlatMemory
import Famicom.Proofs.Coupling

/-!
# Flat memory

What a processor finds again in 64 KiB of RAM. Every access is answered, so only a full counter stops
a processor on it.
-/

namespace Famicom.Cpu

namespace FlatMemory

def blank : FlatMemory := ⟨Vector.replicate _ 0, false⟩

/-- What a write leaves. -/
def store (memory : FlatMemory) (address : UInt16) (value : UInt8) : FlatMemory :=
  { memory.poke address value with
    transferRequested := memory.transferRequested || address == transferRegister }

variable (memory : FlatMemory) (address : UInt16) (value : UInt8)

theorem fetch_poke (other : UInt16) :
    (memory.poke address value).fetch other = if address = other then value else memory.fetch other := by
  have place : address.toNat < 0x10000 := address.toNat_lt
  have place' : other.toNat < 0x10000 := other.toNat_lt
  show (memory.bytes.set address.toNat value)[other.toNat] =
    if address = other then value else memory.bytes[other.toNat]
  rw [Vector.getElem_set]
  simp only [UInt16.toNat_inj]

theorem fetch_store (other : UInt16) :
    (memory.store address value).fetch other = if address = other then value else memory.fetch other :=
  memory.fetch_poke address value other

/-- Bytes lie in a row from some place on. -/
def lay (memory : FlatMemory) (start : UInt16) : List UInt8 → FlatMemory
  | [] => memory
  | byte :: rest => (memory.lay (start + 1) rest).poke start byte

theorem fetch_lay {memory : FlatMemory} {start : UInt16} {bytes : List UInt8}
    (room : bytes.length ≤ 0x10000) {i : Nat} {byte : UInt8} (h : bytes[i]? = some byte) :
    (memory.lay start bytes).fetch (start + UInt16.ofNat i) = byte := by
  induction bytes generalizing start i with
  | nil => cases h
  | cons first rest ih =>
    have place := (List.getElem?_eq_some_iff.1 h).1
    rw [List.length_cons] at room place
    rw [lay, fetch_poke]
    cases i with
    | zero =>
      cases h
      exact if_pos (UInt16.add_zero start).symm
    | succ i =>
      have next : start + UInt16.ofNat (i + 1) = start + 1 + UInt16.ofNat i := by
        rw [UInt16.ofNat_add, UInt16.add_comm (UInt16.ofNat i), UInt16.add_assoc]
        rfl
      have apart : start ≠ start + UInt16.ofNat (i + 1) := by
        intro same
        have round := congrArg UInt16.toNat same
        rw [UInt16.toNat_add, UInt16.toNat_ofNat'] at round
        have := start.toNat_lt
        omega
      rw [if_neg apart, next]
      exact ih (by omega) h

theorem fetch_lay_outside {memory : FlatMemory} {start place : UInt16} {bytes : List UInt8}
    (h : ∀ i < bytes.length, start + UInt16.ofNat i ≠ place) :
    (memory.lay start bytes).fetch place = memory.fetch place := by
  induction bytes generalizing start with
  | nil => rfl
  | cons first rest ih =>
    have here : start ≠ place := by
      have zero := h 0 (Nat.succ_pos _)
      rwa [show UInt16.ofNat 0 = 0 from rfl, UInt16.add_zero] at zero
    rw [lay, fetch_poke, if_neg here]
    refine ih fun i inside => ?_
    have next := h (i + 1) (Nat.succ_lt_succ inside)
    rwa [UInt16.ofNat_add, UInt16.add_comm (UInt16.ofNat i), ← UInt16.add_assoc] at next

theorem read_eq : Bus.read address memory = .ok (memory.fetch address) memory := rfl

theorem write_eq : Bus.write address value memory = .ok () (memory.store address value) := rfl

end FlatMemory

end Famicom.Cpu

/-!
# Bounded logs

A log keeps the newest entries up to its capacity. It fills an array and then overwrites it in a
ring; `toList` is what it holds, oldest first.
-/

namespace Famicom

structure TraceLog (α : Type) where
  capacity : Nat
  entries : Array α := #[]
  /-- The place of the oldest entry of a full log. -/
  oldest : Nat := 0

namespace TraceLog

variable {α : Type}

def push (log : TraceLog α) (entry : α) : TraceLog α :=
  match log with
  | ⟨capacity, entries, oldest⟩ =>
    if entries.size < capacity then
      ⟨capacity, entries.push entry, oldest⟩
    else if h : oldest < entries.size then
      ⟨capacity, entries.set oldest entry, if oldest + 1 < capacity then oldest + 1 else 0⟩
    else
      ⟨capacity, entries, oldest⟩

def size (log : TraceLog α) : Nat := log.entries.size

def isEmpty (log : TraceLog α) : Bool := log.size == 0

def toList (log : TraceLog α) : List α :=
  (log.entries.extract log.oldest log.size ++ log.entries.extract 0 log.oldest).toList

def clear (log : TraceLog α) : TraceLog α := { capacity := log.capacity }

/-- The newest `n` entries, oldest first. -/
def tail (log : TraceLog α) (n : Nat) : List α := log.toList.drop (log.size - n)

def numberLine (index : Nat) (line : String) : String :=
  let digits := toString index
  "".pushn '0' (6 - digits.length) ++ digits ++ " " ++ line ++ "\n"

/-- Every line behind its number, the oldest numbered zero. -/
def dump (log : TraceLog String) : String :=
  String.join (log.toList.mapIdx numberLine)

end TraceLog

end Famicom

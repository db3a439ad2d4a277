import Famicom.TraceLog
import Mathlib.Data.List.DropRight

/-!
# What a bounded log holds

A log that was filled from empty holds the newest of its entries, as many as it has room for, in the
order in which they came.
-/

namespace Famicom.TraceLog

variable {α β : Type} {log : TraceLog α}

/-- The log behind which entries were pushed, the first of them first. -/
def pushAll (log : TraceLog α) (entries : List α) : TraceLog α := entries.foldl push log

theorem pushAll_append (log : TraceLog α) (first second : List α) :
    log.pushAll (first ++ second) = (log.pushAll first).pushAll second := List.foldl_append

/-- A log with other entries in the same places. -/
def map (change : α → β) (log : TraceLog α) : TraceLog β :=
  ⟨log.capacity, log.entries.map change, log.oldest⟩

/-- Only a full log has its oldest entry anywhere but in front. -/
structure Shaped (log : TraceLog α) : Prop where
  room : log.entries.size ≤ log.capacity
  turned : log.oldest = 0 ∨ log.entries.size = log.capacity ∧ log.oldest < log.capacity

theorem empty_shaped (capacity : Nat) : Shaped ({ capacity := capacity } : TraceLog α) where
  room := Nat.zero_le _
  turned := .inl rfl

theorem Shaped.oldest_le (h : log.Shaped) : log.oldest ≤ log.entries.size := by
  have room := h.room
  have turned := h.turned
  omega

theorem toList_eq (log : TraceLog α) : log.toList =
    log.entries.toList.drop log.oldest ++ log.entries.toList.take log.oldest := by
  have whole : (log.entries.toList.drop log.oldest).length ≤ log.size - log.oldest := by
    rw [List.length_drop]
    exact Nat.le_refl _
  rw [toList, Array.toList_append, Array.toList_extract, Array.toList_extract,
    List.extract_eq_take_drop, List.extract_eq_take_drop, List.take_of_length_le whole,
    List.drop_zero, Nat.sub_zero]

theorem length_toList (h : log.oldest ≤ log.entries.size) :
    log.toList.length = log.entries.size := by
  rw [toList_eq, List.length_append, List.length_drop, List.length_take, Array.length_toList]
  omega

theorem map_toList (change : α → β) (log : TraceLog α) :
    (log.map change).toList = log.toList.map change := by
  rw [toList_eq, toList_eq, map, Array.toList_map, List.map_append, List.map_drop, List.map_take]

/-- The three things that can happen to a new entry. -/
inductive Pushed (log : TraceLog α) (entry : α) : TraceLog α → Prop
  | added (less : log.entries.size < log.capacity) (front : log.oldest = 0) :
      Pushed log entry ⟨log.capacity, log.entries.push entry, 0⟩
  | replaced (full : log.entries.size = log.capacity) (inside : log.oldest < log.entries.size) :
      Pushed log entry ⟨log.capacity, log.entries.set log.oldest entry,
        if log.oldest + 1 < log.capacity then log.oldest + 1 else 0⟩
  | dropped (zero : log.capacity = 0) : Pushed log entry log

theorem push_cases (h : log.Shaped) (entry : α) : Pushed log entry (log.push entry) := by
  have room := h.room
  have turned := h.turned
  obtain ⟨capacity, entries, oldest⟩ := log
  dsimp only at room turned
  unfold push
  dsimp only
  split
  · rename_i less
    obtain rfl : oldest = 0 := by omega
    exact .added less rfl
  split
  · exact .replaced (by dsimp only; omega) ‹_›
  · exact .dropped (by dsimp only; omega)

theorem push_shaped (h : log.Shaped) (entry : α) : (log.push entry).Shaped := by
  have pushed := push_cases h entry
  generalize log.push entry = next at pushed
  cases pushed with
  | added less front => exact ⟨by rw [Array.size_push]; exact less, .inl rfl⟩
  | replaced full inside =>
    refine ⟨by rw [Array.size_set]; exact h.room, ?_⟩
    rw [Array.size_set]
    dsimp only
    split
    · exact .inr ⟨full, ‹_›⟩
    · exact .inl rfl
  | dropped zero => exact h

/-- All but the oldest entry of a log. -/
theorem toList_rtake {others : Nat} (size : log.entries.size = others + 1)
    (inside : log.oldest < log.entries.size) : log.toList.rtake others =
      log.entries.toList.drop (log.oldest + 1) ++ log.entries.toList.take log.oldest := by
  have within : log.oldest < log.entries.toList.length := by rwa [Array.length_toList]
  rw [List.rtake, length_toList (Nat.le_of_lt inside), size, Nat.add_sub_cancel_left, toList_eq,
    List.drop_eq_getElem_cons within]
  rfl

/-- The new entry is behind all others, whichever way the ring turns. -/
theorem set_toList (entry : α) (full : log.entries.size = log.capacity)
    (inside : log.oldest < log.entries.size) :
    (⟨log.capacity, log.entries.set log.oldest entry,
      if log.oldest + 1 < log.capacity then log.oldest + 1 else 0⟩ : TraceLog α).toList =
    log.entries.toList.drop (log.oldest + 1) ++ log.entries.toList.take log.oldest ++ [entry] := by
  have within : log.oldest < log.entries.toList.length := by rwa [Array.length_toList]
  have placed : (log.entries.set log.oldest entry).toList =
      (log.entries.toList.take log.oldest ++ [entry]) ++
        log.entries.toList.drop (log.oldest + 1) := by
    rw [Array.toList_set, List.set_eq_take_append_cons_drop, if_pos within, List.append_assoc,
      List.singleton_append]
  have front : (log.entries.toList.take log.oldest ++ [entry]).length = log.oldest + 1 := by
    rw [List.length_append, List.length_take_of_le (Nat.le_of_lt within), List.length_singleton]
  rw [toList_eq, placed]
  dsimp only
  split
  · rw [List.drop_left' front, List.take_left' front, List.append_assoc]
  · have last : log.entries.toList.drop (log.oldest + 1) = [] :=
      List.drop_of_length_le (by rw [Array.length_toList]; omega)
    rw [last, List.append_nil, List.drop_zero, List.take_zero, List.append_nil, List.nil_append]

/-- A full log loses its oldest entry to a new one. -/
theorem push_toList (h : log.Shaped) (entry : α) :
    (log.push entry).toList = (log.toList ++ [entry]).rtake log.capacity := by
  have pushed := push_cases h entry
  have length := length_toList h.oldest_le
  generalize log.push entry = next at pushed
  cases pushed with
  | added less front =>
    have all : log.toList = log.entries.toList := by
      rw [toList_eq, front, List.drop_zero, List.take_zero, List.append_nil]
    have short : (log.toList ++ [entry]).length - log.capacity = 0 := by
      rw [List.length_append, length, List.length_singleton]
      omega
    rw [toList_eq, List.rtake, short, List.drop_zero, all, Array.toList_push, List.drop_zero,
      List.take_zero, List.append_nil]
  | replaced full inside =>
    obtain ⟨others, count⟩ : ∃ others, log.capacity = others + 1 :=
      Nat.exists_eq_succ_of_ne_zero (by omega)
    rw [set_toList entry full inside, count, List.rtake_concat_succ,
      toList_rtake (full.trans count) inside]
  | dropped zero =>
    rw [zero, List.rtake_zero]
    exact List.length_eq_zero_iff.1 (by have room := h.room; omega)

theorem push_capacity (h : log.Shaped) (entry : α) :
    (log.push entry).capacity = log.capacity := by
  have pushed := push_cases h entry
  generalize log.push entry = next at pushed
  cases pushed <;> rfl

theorem rtake_append (count : Nat) (first second : List α) :
    (first.rtake count ++ second).rtake count = (first ++ second).rtake count := by
  have taken : first.rtake count ++ second =
      (first ++ second).drop (first.length - count) :=
    (List.drop_append_of_le_length (Nat.sub_le _ _)).symm
  rw [taken, List.rtake, List.rtake, List.drop_drop, List.length_drop, List.length_append]
  congr 1
  omega

/-- Of everything that was pushed a log holds the newest, as many as it has room for. -/
theorem pushAll_toList (h : log.Shaped) (entries : List α) :
    (log.pushAll entries).toList = (log.toList ++ entries).rtake log.capacity ∧
      (log.pushAll entries).Shaped ∧ (log.pushAll entries).capacity = log.capacity := by
  induction entries generalizing log with
  | nil =>
    have short : log.toList.length - log.capacity = 0 := by
      rw [length_toList h.oldest_le]
      exact Nat.sub_eq_zero_of_le h.room
    refine ⟨?_, h, rfl⟩
    rw [List.append_nil, List.rtake, short]
    rfl
  | cons entry rest ih =>
    obtain ⟨held, shaped, capacity⟩ := ih (push_shaped h entry)
    rw [push_capacity h] at held capacity
    refine ⟨held.trans ?_, shaped, capacity⟩
    rw [push_toList h, rtake_append, List.append_assoc, List.singleton_append]

end Famicom.TraceLog

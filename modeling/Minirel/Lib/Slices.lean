-- SUMMARY: Slices of a list, and what overwriting one leaves of the others.
import Mathlib.Data.List.Basic

/-!
# Slices

A part of a list is written over. What is read from a place apart from it is as before, and
what is read from within it is what was written.
-/

namespace Minirel

variable {α : Type} {l new : List α} {start offset len k : Nat}

/-- `len` elements from `start` on. -/
def slice (l : List α) (start len : Nat) : List α := (l.drop start).take len

/-- The list with other elements from `start` on. -/
def writeAt (l : List α) (start : Nat) (new : List α) : List α :=
  l.take start ++ (new ++ l.drop (start + new.length))

theorem getElem?_slice (l : List α) (start len i : Nat) :
    (slice l start len)[i]? = if i < len then l[start + i]? else none := by
  rw [slice, List.getElem?_take, List.getElem?_drop]

theorem length_writeAt (h : start + new.length ≤ l.length) : (writeAt l start new).length = l.length := by
  simp only [writeAt, List.length_append, List.length_take, List.length_drop]
  omega

theorem getElem?_writeAt (h : start + new.length ≤ l.length) (i : Nat) :
    (writeAt l start new)[i]? =
      if start ≤ i ∧ i < start + new.length then new[i - start]? else l[i]? := by
  have htake : (l.take start).length = start := by
    rw [List.length_take]
    omega
  unfold writeAt
  by_cases hbefore : i < start
  · rw [List.getElem?_append_left (by omega), List.getElem?_take_of_lt hbefore, if_neg (by omega)]
  · rw [List.getElem?_append_right (by omega), htake]
    by_cases hwithin : i < start + new.length
    · rw [List.getElem?_append_left (by omega), if_pos (by omega)]
    · rw [List.getElem?_append_right (by omega), List.getElem?_drop, if_neg (by omega)]
      congr 1
      omega

/-- What stands apart from the part that was written. -/
theorem slice_writeAt_apart (h : start + new.length ≤ l.length)
    (hapart : offset + len ≤ start ∨ start + new.length ≤ offset) :
    slice (writeAt l start new) offset len = slice l offset len := by
  apply List.ext_getElem?
  intro i
  rw [getElem?_slice, getElem?_slice]
  by_cases hi : i < len
  · rw [if_pos hi, if_pos hi, getElem?_writeAt h, if_neg (by omega)]
  · rw [if_neg hi, if_neg hi]

/-- What stands in the part that was written. -/
theorem slice_writeAt_within (h : start + new.length ≤ l.length) (hk : k + len ≤ new.length) :
    slice (writeAt l start new) (start + k) len = slice new k len := by
  apply List.ext_getElem?
  intro i
  rw [getElem?_slice, getElem?_slice]
  by_cases hi : i < len
  · rw [if_pos hi, if_pos hi, getElem?_writeAt h, if_pos (by omega)]
    congr 1
    omega
  · rw [if_neg hi, if_neg hi]

theorem slice_writeAt_self (h : start + new.length ≤ l.length) :
    slice (writeAt l start new) start new.length = new := by
  have hwithin := @slice_writeAt_within _ l new start new.length 0 h (by omega)
  rw [Nat.add_zero] at hwithin
  rw [hwithin, slice, List.drop_zero, List.take_length]

end Minirel

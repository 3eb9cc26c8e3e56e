-- SUMMARY: The bytes of a page as they are written in place: one byte, a slice, packed fields.
import Minirel.Lib.Bytes
import Minirel.Lib.WeakestPre
import Minirel.Python

/-!
# Bytes written in place

What `bytearray` and `struct.pack_into` do to the bytes of a page. The writers of this program
go through a page from its start, so what each write leaves behind is stated for bytes that are
split where it begins.
-/

namespace Minirel

/-- A computation on the bytes of a page. What it has written before it raises stays written. -/
abbrev BytesM := EStateM PyError Bytes

/-- The bytes of fields, each with its width in front. -/
def packed (fields : List (Nat × Nat)) : Bytes := fields.flatMap fun x => littleEndian x.1 x.2

namespace BytesM

variable {α β : Type}

/-- The result of a computation that does not touch the bytes. -/
def lift (x : Except PyError α) : BytesM α := fun data =>
  match x with
  | .ok a => .ok a data
  | .error e => .error e data

/-- `data[index] = b`. -/
def setByte (index : Nat) (b : UInt8) : BytesM Unit := fun data =>
  if index < data.length then .ok () (data.set index b) else .error .indexError data

/-- `data[start:stop] = new`. A slice that runs beyond the bytes makes them longer. -/
def setSlice (start stop : Nat) (new : Bytes) : BytesM Unit := fun data =>
  .ok () (data.take start ++ (new ++ data.drop stop))

/-- `struct.pack_into` of these fields. -/
def packInto (offset : Nat) (fields : List (Nat × Nat)) : BytesM Unit := fun data =>
  if offset + (packed fields).length ≤ data.length ∧ ∀ x ∈ fields, x.2 < 256 ^ x.1 then
    .ok () (data.take offset ++ (packed fields ++ data.drop (offset + (packed fields).length)))
  else .error .structError data

/-! ## What a write leaves behind -/

variable {before rest new data : Bytes} {fields : List (Nat × Nat)} {offset start stop width : Nat}

@[simp] theorem length_packed (fields : List (Nat × Nat)) :
    (packed fields).length = (fields.map (·.1)).sum := by
  simp [packed, List.length_flatMap]

theorem lift_ok {x : Except PyError α} {a : α} (h : x = .ok a) : lift x data = .ok a data := by
  subst h
  rfl

theorem lift_error {x : Except PyError α} {e : PyError} (h : x = .error e) : lift x data = .error e data := by
  subst h
  rfl

theorem setByte_zero {b : UInt8} (h : 0 < data.length) : setByte 0 b data = .ok () (b :: data.drop 1) := by
  rw [setByte, if_pos h]
  cases data with
  | nil => cases h
  | cons _ data => rfl

theorem setSlice_at (hstart : before.length = start) (hstop : start + width = stop) :
    setSlice start stop new (before ++ rest) = .ok () (before ++ (new ++ rest.drop width)) := by
  subst hstart hstop
  rw [setSlice, List.take_left, List.drop_length_add_append]

theorem packInto_at (hoffset : before.length = offset) (hroom : (packed fields).length ≤ rest.length)
    (hfits : ∀ x ∈ fields, x.2 < 256 ^ x.1) :
    packInto offset fields (before ++ rest) =
      .ok () (before ++ (packed fields ++ rest.drop (packed fields).length)) := by
  subst hoffset
  have hle : before.length + (packed fields).length ≤ (before ++ rest).length := by
    rw [List.length_append]
    omega
  rw [packInto, if_pos ⟨hle, hfits⟩, List.take_left, List.drop_length_add_append]

/-- Fields that have no room or do not fit their bytes. -/
theorem packInto_error
    (h : ¬(offset + (packed fields).length ≤ data.length ∧ ∀ x ∈ fields, x.2 < 256 ^ x.1)) :
    packInto offset fields data = .error .structError data := if_neg h

end BytesM
end Minirel

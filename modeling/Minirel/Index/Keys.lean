-- SUMMARY: The keys of INT and TEXT indexes: how they are stored, and the orders behind them.
import Minirel.Lib.Bytes
import Minirel.Types
import Minirel.Index.Nodes
import Mathlib.Data.List.DropRight

/-!
# The keys of an index

A key is a Python value on the way in. An INT key is stored in eight bytes as a signed
integer, whatever it was before; a TEXT key as its first eight UTF-8 bytes, filled up
with NULs that reading strips off again.
-/

namespace Minirel

/-- A key as it stands on a page. -/
inductive RawKey where
  | int (i : Int)
  | text (bytes : List UInt8)
  deriving DecidableEq

/-- The default `key_size`. -/
def textKeySize : Nat := 8

def encodeText (s : String) : List UInt8 :=
  let raw := (utf8 s).take textKeySize
  raw ++ List.replicate (textKeySize - raw.length) 0

def decodeText (raw : List UInt8) : Except PyError String :=
  match String.fromUTF8? ⟨(raw.rdropWhile (· = 0)).toArray⟩ with
  | some s => .ok s
  | none => .error .unicodeDecodeError

namespace KeyType

variable (C : Conversions)

/-- The keys of a tree over a column. A column that is neither INT nor TEXT cannot be
    indexed. -/
def ofColumn : ColumnType → KeyType Value RawKey
  | .int =>
    { keySize := 8
      lt := Value.lt
      eq := Value.eq
      encodeKey := fun key => do
        let i ← C.toInt key
        if -2 ^ 63 ≤ i ∧ i < 2 ^ 63 then return .int i else throw .structError
      decodeKey := fun
        | .int i => .ok (.int i)
        | .text _ => .error .foreignPage
      repr := C.repr }
  | _ =>
    { keySize := textKeySize
      lt := Value.lt
      eq := Value.eq
      encodeKey := fun key => .ok (.text (encodeText (C.toStr key)))
      decodeKey := fun
        | .int _ => .error .foreignPage
        | .text raw => do return .str (← decodeText raw)
      repr := C.repr }

end KeyType

namespace KeyOrder

variable (C : Conversions)

/-! ## INT -/

/-- The numbers, of which the integers of the signed 64-bit range can be stored. -/
def intColumn : KeyOrder (KeyType.ofColumn C .int) Extended where
  rank := Value.rank
  val
    | .int i => .int i
    | .text _ => .none
  Comparable := Value.IsNumber
  Stored e := ∃ i : Int, e = .int i ∧ -2 ^ 63 ≤ i ∧ i < 2 ^ 63
  keySize_le := by simp [KeyType.ofColumn]
  lt_eq := Value.lt_eq
  eq_eq := Value.eq_eq
  comparable_val := by
    rintro e ⟨i, rfl, -⟩
    exact Value.isNumber_int i
  decode_eq := by
    rintro e ⟨i, rfl, -⟩
    rfl
  encode_val := by
    rintro e ⟨i, rfl, hi⟩
    exact if_pos hi

end KeyOrder

/-! ## TEXT -/

/-- A text that is read back from an index as it was stored. -/
def Kept (s : String) : Prop := s.utf8ByteSize ≤ textKeySize ∧ (utf8 s).getLast? ≠ some 0

instance (s : String) : Decidable (Kept s) := inferInstanceAs (Decidable (_ ∧ _))

theorem decodeText_eq_ok {raw : List UInt8} {s : String} :
    decodeText raw = .ok s ↔ raw.rdropWhile (· = 0) = utf8 s := by
  rw [← fromUTF8?_eq_some, decodeText]
  cases String.fromUTF8? ⟨(raw.rdropWhile (· = 0)).toArray⟩ <;> simp

theorem rdropWhile_append_zeros (l : List UInt8) (n : Nat) :
    (l ++ List.replicate n 0).rdropWhile (· = 0) = l.rdropWhile (· = 0) := by
  induction n with
  | zero => simp
  | succ n ih =>
    rw [List.replicate_succ', ← List.append_assoc, List.rdropWhile_concat_pos _ _ _ (by simp), ih]

theorem decodeText_encodeText_iff (s : String) : decodeText (encodeText s) = .ok s ↔ Kept s := by
  rw [decodeText_eq_ok, encodeText, rdropWhile_append_zeros, Kept, ← length_utf8]
  constructor
  · intro h
    have hprefix : utf8 s <+: (utf8 s).take textKeySize := by
      conv_lhs => rw [← h]
      exact List.rdropWhile_prefix _ _
    have hlen := hprefix.length_le
    rw [List.length_take] at hlen
    have hle : (utf8 s).length ≤ textKeySize := by omega
    refine ⟨hle, fun hlast => ?_⟩
    obtain ⟨init, hinit⟩ := List.getLast?_eq_some_iff.mp hlast
    rw [List.take_of_length_le hle, List.rdropWhile_eq_self_iff] at h
    exact h (by simp [hinit]) (by simp [hinit])
  · rintro ⟨hlen, hlast⟩
    rw [List.take_of_length_le hlen, List.rdropWhile_eq_self_iff]
    intro hne hzero
    refine hlast ?_
    rw [List.getLast?_eq_some_getLast hne]
    simpa using hzero

namespace KeyOrder

/-- The texts by code points, of which those that are read back can be stored. -/
def textColumn (C : Conversions) : KeyOrder (KeyType.ofColumn C .text) String where
  rank
    | .str s => s
    | _ => ""
  val
    | .text raw => .str ((decodeText raw).toOption.getD "")
    | .int _ => .none
  Comparable v := ∃ s, v = .str s
  Stored e := ∃ s, e = .text (encodeText s) ∧ Kept s
  keySize_le := by simp [KeyType.ofColumn, textKeySize]
  lt_eq := by
    rintro a b ⟨s, rfl⟩ ⟨t, rfl⟩
    rfl
  eq_eq := by
    rintro a b ⟨s, rfl⟩ ⟨t, rfl⟩
    rfl
  comparable_val := by
    rintro e ⟨s, rfl, hs⟩
    exact ⟨_, rfl⟩
  decode_eq := by
    rintro e ⟨s, rfl, hs⟩
    simp [KeyType.ofColumn, (decodeText_encodeText_iff s).mpr hs, Except.toOption]
  encode_val := by
    rintro e ⟨s, rfl, hs⟩
    simp [KeyType.ofColumn, (decodeText_encodeText_iff s).mpr hs, Except.toOption,
      Conversions.toStr]

theorem val_encodeText {C : Conversions} {key : String} (h : Kept key) :
    (textColumn C).val (.text (encodeText key)) = .str key := by
  simp [textColumn, (decodeText_encodeText_iff key).mpr h, Except.toOption]

theorem rk_encodeText {C : Conversions} {key : String} (h : Kept key) :
    (textColumn C).rk (.text (encodeText key)) = key := by
  rw [rk, val_encodeText h]
  rfl

end KeyOrder
end Minirel

-- SUMMARY: Numbers and texts in bytes, and fields read at an offset.
import Mathlib.Data.String.Basic
import Mathlib.Tactic.Linarith
import Mathlib.Tactic.Positivity

/-!
# Bytes

A number of a fixed width is written with its lowest byte first, a negative one modulo the
next power of two. A field is read at an offset, and there is none where the bytes end
before it does.
-/

namespace Minirel

abbrev Bytes := List UInt8

/-! ## Numbers -/

/-- `n` in `width` bytes, the lowest first. -/
def littleEndian : Nat → Nat → Bytes
  | 0, _ => []
  | width + 1, n => .ofNat n :: littleEndian width (n / 256)

def ofLittleEndian : Bytes → Nat
  | [] => 0
  | b :: bytes => b.toNat + 256 * ofLittleEndian bytes

@[simp] theorem length_littleEndian (width n : Nat) : (littleEndian width n).length = width := by
  induction width generalizing n with
  | zero => rfl
  | succ width ih => rw [littleEndian, List.length_cons, ih]

theorem ofLittleEndian_littleEndian {width n : Nat} (h : n < 256 ^ width) :
    ofLittleEndian (littleEndian width n) = n := by
  induction width generalizing n with
  | zero =>
    obtain rfl : n = 0 := by simpa using h
    rfl
  | succ width ih =>
    have hdiv : n / 256 < 256 ^ width := Nat.div_lt_of_lt_mul (by rwa [pow_succ'] at h)
    rw [littleEndian, ofLittleEndian, ih hdiv, UInt8.toNat_ofNat']
    omega

theorem ofLittleEndian_lt (bytes : Bytes) : ofLittleEndian bytes < 256 ^ bytes.length := by
  induction bytes with
  | nil => exact Nat.one_pos
  | cons b bytes ih =>
    have hb : b.toNat < 256 := b.toNat_lt
    rw [ofLittleEndian, List.length_cons, pow_succ]
    omega

/-- A signed number modulo `256 ^ width`. -/
def unsigned (width : Nat) (i : Int) : Nat := (i % 256 ^ width).toNat

/-- The signed number that stands for `n` modulo `256 ^ width`. -/
def signed (width n : Nat) : Int := (n : Int).bmod (256 ^ width)

theorem unsigned_lt (width : Nat) (i : Int) : unsigned width i < 256 ^ width := by
  have hpos : (0 : Int) < 256 ^ width := by positivity
  have hlt := Int.emod_lt_of_pos i hpos
  have hnonneg := Int.emod_nonneg i hpos.ne'
  zify
  rw [unsigned, Int.toNat_of_nonneg hnonneg]
  exact hlt

theorem signed_unsigned {width : Nat} {i : Int} (hlow : -(256 ^ width) ≤ 2 * i)
    (hhigh : 2 * i < 256 ^ width) : signed width (unsigned width i) = i := by
  have hpos : (0 : Int) < 256 ^ width := by positivity
  rw [signed, unsigned, Int.toNat_of_nonneg (Int.emod_nonneg i hpos.ne')]
  rw [show (256 : Int) ^ width = ((256 ^ width : Nat) : Int) by push_cast; rfl, Int.emod_bmod]
  refine Int.bmod_eq_of_le_mul_two ?_ ?_
  · push_cast
    linarith
  · push_cast
    linarith

/-! ## Texts -/

def utf8 (s : String) : Bytes := s.toUTF8.data.toList

@[simp] theorem length_utf8 (s : String) : (utf8 s).length = s.utf8ByteSize := by
  rw [utf8, Array.length_toList]
  rfl

theorem fromUTF8?_eq_some {bytes : Bytes} {s : String} :
    String.fromUTF8? ⟨bytes.toArray⟩ = some s ↔ bytes = utf8 s := by
  constructor
  · intro h
    unfold String.fromUTF8? at h
    split at h
    · cases h
      rfl
    · cases h
  · rintro rfl
    have hbytes : (⟨(utf8 s).toArray⟩ : ByteArray) = s.toByteArray := by
      simp [utf8]
    rw [hbytes, String.fromUTF8?, dif_pos s.isValidUTF8]
    rfl

/-! ## Fields -/

/-- The number in `width` bytes at `offset`. -/
def fieldAt (data : Bytes) (offset width : Nat) : Option Nat :=
  if offset + width ≤ data.length then some (ofLittleEndian ((data.drop offset).take width)) else none

theorem fieldAt_lt {data : Bytes} {offset width n : Nat} (h : fieldAt data offset width = some n) :
    n < 256 ^ width := by
  unfold fieldAt at h
  split at h
  · cases h
    refine (ofLittleEndian_lt _).trans_le (Nat.pow_le_pow_right (by decide) ?_)
    rw [List.length_take]
    exact Nat.min_le_left ..
  · cases h

theorem ofLittleEndian_zeros (n : Nat) : ofLittleEndian (List.replicate n 0) = 0 := by
  induction n with
  | zero => rfl
  | succ n ih => rw [List.replicate_succ, ofLittleEndian, ih]; rfl

theorem fieldAt_zeros {n offset width : Nat} (h : offset + width ≤ n) :
    fieldAt (List.replicate n 0) offset width = some 0 := by
  rw [fieldAt, if_pos (by rwa [List.length_replicate]), List.drop_replicate, List.take_replicate,
    ofLittleEndian_zeros]

/-- A field is read back where it was written, whatever stands before and after it. -/
theorem fieldAt_written {before after : Bytes} {width n : Nat} (h : n < 256 ^ width) :
    fieldAt (before ++ (littleEndian width n ++ after)) before.length width = some n := by
  have htake : (littleEndian width n ++ after).take width = littleEndian width n :=
    List.take_left' (length_littleEndian width n)
  rw [fieldAt, if_pos (by simp), List.drop_left, htake, ofLittleEndian_littleEndian h]

end Minirel

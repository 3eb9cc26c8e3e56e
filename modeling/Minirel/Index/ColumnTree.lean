-- SUMMARY: The trees of INT and TEXT indexes by their entries.
import Minirel.Index.KeyTree

/-!
# The trees of INT and TEXT indexes

What goes into an index is the value of the statement, and what stands in the row is the
field it was encoded to. A key is faithful if the index gives back what the row holds: a
number that `int` does not cut, a text that the eight bytes of a key hold.
-/

namespace Minirel

/-- A value that `int` does not cut. -/
def Value.Whole : Value → Prop
  | .float (.finite q) => q.den = 1
  | _ => True

instance (v : Value) : Decidable v.Whole := by
  unfold Value.Whole
  split <;> infer_instance

/-- A value whose field in a row and whose key in an index are the same. -/
def Faithful (C : Conversions) : ColumnType → Value → Prop
  | .int, value => value.Whole
  | .text, value => Kept (C.toStr value)
  | _, _ => True

/-- An integer that fits eight bytes. -/
def Fits64 (i : Int) : Prop := -2 ^ 63 ≤ i ∧ i < 2 ^ 63

/-- What stands in an index for a field. -/
def Cell.rawKey : Cell → RawKey
  | .int i _ => .int i
  | .text s _ => .text (encodeText s)
  | _ => .text []

/-- The columns that can be indexed. -/
def ColumnType.Indexable (ty : ColumnType) : Prop := ty = .int ∨ ty = .text

section
variable {C : Conversions} {value : Value} {cell : Cell} {i : Int}

/-! ## INT -/

theorem KeyOrder.exact_int (C : Conversions) : (KeyOrder.intColumn C).Exact := by
  rintro k k' ⟨i, rfl, -⟩ ⟨j, rfl, -⟩ hrk
  have hij : i = j := by
    simpa [KeyOrder.rk, KeyOrder.intColumn, Value.rank, Value.number?, PyFloat.rank?] using hrk
  rw [hij]

/-- A number that is converted without loss is stored where it stands. -/
theorem KeyOrder.storedAs_toInt (h : C.toInt value = .ok i) (hi : Fits64 i) (hwhole : value.Whole)
    (htext : ∀ text, value ≠ .str text) : (KeyOrder.intColumn C).StoredAs value (.int i) := by
  have hstored : (KeyOrder.intColumn C).Stored (.int i) := ⟨i, rfl, hi⟩
  have hencode : (KeyType.ofColumn C .int).encodeKey value = .ok (.int i) := by
    change (C.toInt value >>= fun i => _) = _
    rw [h]
    exact if_pos hi
  suffices hrank : value.IsNumber ∧ value.rank = (Value.int i).rank from
    ⟨hrank.1, hstored, hrank.2, hencode⟩
  cases value with
  | none => cases h
  | bool b =>
    cases h
    refine ⟨⟨_, _, rfl, rfl⟩, ?_⟩
    cases b <;> rfl
  | int j =>
    obtain rfl : j = i := by simpa [Conversions.toInt] using h
    exact ⟨Value.isNumber_int j, rfl⟩
  | float x =>
    cases x with
    | nan => cases h
    | negInf => cases h
    | posInf => cases h
    | finite q =>
      cases h
      have hq : q.num.tdiv q.den = q.num := by
        rw [show q.den = 1 from hwhole]
        exact Int.tdiv_one _
      have hnum : (q.num : ℚ) = q := Rat.coe_int_num_of_den_eq_one hwhole
      refine ⟨⟨_, _, rfl, rfl⟩, ?_⟩
      rw [hq]
      simp [Value.rank, Value.number?, PyFloat.rank?, hnum]
  | str text => exact absurd rfl (htext text)

theorem KeyOrder.enters_toInt (h : C.toInt value = .ok i) (hi : Fits64 i) (hwhole : value.Whole) :
    (KeyOrder.intColumn C).Enters value (.int i) := by
  by_cases htext : ∃ text, value = .str text
  · obtain ⟨text, rfl⟩ := htext
    refine .inr ⟨⟨i, rfl, hi⟩, ?_, .typeError, ?_⟩
    · change (C.toInt (.str text) >>= fun i => _) = _
      rw [h]
      exact if_pos hi
    · rintro k' ⟨j, rfl, -⟩
      exact ⟨rfl, rfl⟩
  · exact .inl (KeyOrder.storedAs_toInt h hi hwhole fun text heq => htext ⟨text, heq⟩)

/-! ## TEXT -/

theorem KeyOrder.exact_text (C : Conversions) : (KeyOrder.textColumn C).Exact := by
  rintro k k' ⟨s, rfl, hs⟩ ⟨t, rfl, ht⟩ hrk
  rw [rk_encodeText hs, rk_encodeText ht] at hrk
  rw [hrk]

theorem KeyOrder.enters_toStr (h : Kept (C.toStr value)) :
    (KeyOrder.textColumn C).Enters value (.text (encodeText (C.toStr value))) := by
  have hstored : (KeyOrder.textColumn C).Stored (.text (encodeText (C.toStr value))) := ⟨_, rfl, h⟩
  by_cases htext : ∃ text, value = .str text
  · obtain ⟨text, rfl⟩ := htext
    exact .inl ⟨⟨text, rfl⟩, hstored, (rk_encodeText h).symm, rfl⟩
  · refine .inr ⟨hstored, rfl, .typeError, ?_⟩
    rintro k' ⟨s, rfl, hs⟩
    rw [val_encodeText hs]
    cases value with
    | str text => exact absurd ⟨text, rfl⟩ htext
    | none => exact ⟨rfl, rfl⟩
    | bool b => exact ⟨rfl, rfl⟩
    | int j => exact ⟨rfl, rfl⟩
    | float x => exact ⟨rfl, rfl⟩

end

namespace BPlusTree

variable {τ : Type} {C : Conversions} {keyType : ColumnType} {own own' : Nat → Prop}
  {s s' : PageFile RawKey τ} {root : Nat} {es : List (RawKey × RID)} {x : Value} {k : RawKey}
  {rid : RID}

/-- The tree of an index on pages of its own, by its entries. -/
def ColumnTree (C : Conversions) : ColumnType → (Nat → Prop) → PageFile RawKey τ → Nat →
    List (RawKey × RID) → Prop
  | .int => KeyTree (.intColumn C)
  | .text => KeyTree (.textColumn C)
  | _ => fun _ _ _ _ => False

/-- A key that is stored as `k`, if it is let in at all. -/
def Enters (C : Conversions) : ColumnType → Value → RawKey → Prop
  | .int => (KeyOrder.intColumn C).Enters
  | .text => (KeyOrder.textColumn C).Enters
  | _ => fun _ _ => False

/-- A key that is stored as `k` and stands where `k` stands. -/
def StoredAs (C : Conversions) : ColumnType → Value → RawKey → Prop
  | .int => (KeyOrder.intColumn C).StoredAs
  | .text => (KeyOrder.textColumn C).StoredAs
  | _ => fun _ _ => False

theorem Enters.encode_eq (h : Enters C keyType x k) :
    (KeyType.ofColumn C keyType).encodeKey x = .ok k := by
  cases keyType with
  | int => exact KeyOrder.Enters.encode_eq h
  | text => exact KeyOrder.Enters.encode_eq h
  | float => cases h
  | bool => cases h

theorem StoredAs.enters (h : StoredAs C keyType x k) : Enters C keyType x k := by
  cases keyType with
  | int => exact .inl h
  | text => exact .inl h
  | float => cases h
  | bool => cases h

theorem StoredAs.encode_eq (h : StoredAs C keyType x k) :
    (KeyType.ofColumn C keyType).encodeKey x = .ok k := h.enters.encode_eq

/-- A faithful value goes into an index as the key of its field. -/
theorem enters_of_faithful {cell : Cell} (hcell : encodeValue C x keyType = .ok cell)
    (hx : Faithful C keyType x) (hty : keyType.Indexable) : Enters C keyType x cell.rawKey := by
  obtain rfl | rfl := hty
  · obtain ⟨i, hi, hcell⟩ := bind_eq_ok.mp hcell
    split at hcell
    · rename_i hfits
      cases hcell
      exact KeyOrder.enters_toInt hi hfits hx
    · cases hcell
  · simp only [encodeValue] at hcell
    split at hcell
    · cases hcell
      exact KeyOrder.enters_toStr hx
    · cases hcell

/-- What is read back of a faithful value is faithful. -/
theorem faithful_value {cell : Cell} (hcell : encodeValue C x keyType = .ok cell)
    (hx : Faithful C keyType x) : Faithful C cell.type cell.value := by
  have htype := encodeValue_type hcell
  cases cell with
  | int i fits => exact trivial
  | float y => exact trivial
  | bool b => exact trivial
  | text text fits =>
    obtain rfl : .text = keyType := htype
    simp only [encodeValue] at hcell
    split at hcell
    · cases hcell
      exact hx
    · cases hcell

/-- What a field holds is a key that stands where the key of the field stands. -/
theorem storedAs_value {cell : Cell} (hty : cell.type.Indexable)
    (hcell : Faithful C cell.type cell.value) : StoredAs C cell.type cell.value cell.rawKey := by
  cases cell with
  | int i fits => exact KeyOrder.storedAs_val (O := KeyOrder.intColumn C) ⟨i, rfl, fits⟩
  | float x => obtain h | h := hty <;> cases h
  | bool b => obtain h | h := hty <;> cases h
  | text text fits =>
    have hkept : Kept text := hcell
    have h := KeyOrder.storedAs_val (O := KeyOrder.textColumn C) ⟨text, rfl, hkept⟩
    rwa [KeyOrder.val_encodeText hkept] at h

theorem ColumnTree.congr (h : ColumnTree C keyType own s root es)
    (hsame : ∀ p, own p → s'[p]? = s[p]?) (hlen : s.length ≤ s'.length) :
    ColumnTree C keyType own s' root es := by
  cases keyType with
  | int => exact KeyTree.congr h hsame hlen
  | text => exact KeyTree.congr h hsame hlen
  | float => cases h
  | bool => cases h

theorem ColumnTree.create (C : Conversions) (hty : keyType.Indexable) (s : PageFile RawKey τ) :
    ColumnTree C keyType (fun p => p = s.length) (s ++ [.leaf [] invalidPageId]) s.length [] := by
  obtain rfl | rfl := hty
  · exact KeyTree.create _ s
  · exact KeyTree.create _ s

theorem ColumnTree.search_eq (h : ColumnTree C keyType own s root es) (hx : StoredAs C keyType x k) :
    search (.ofColumn C keyType) root x s = .ok (ridsUnder es k) s := by
  cases keyType with
  | int => exact KeyTree.search_eq h (KeyOrder.exact_int C) hx
  | text => exact KeyTree.search_eq h (KeyOrder.exact_text C) hx
  | float => cases h
  | bool => cases h

/-- A search that returns has found the RIDs under the key. -/
theorem ColumnTree.search_enters {rids : List RID} (h : ColumnTree C keyType own s root es)
    (hx : Enters C keyType x k) (hrun : search (.ofColumn C keyType) root x s = .ok rids s') :
    rids = ridsUnder es k := by
  cases keyType with
  | int => exact KeyTree.search_enters h (KeyOrder.exact_int C) hx hrun
  | text => exact KeyTree.search_enters h (KeyOrder.exact_text C) hx hrun
  | float => cases h
  | bool => cases h

/-- What an insertion that returns leaves behind. -/
structure ColumnTook (C : Conversions) (keyType : ColumnType) (own : Nat → Prop)
    (s : PageFile RawKey τ) (es : List (RawKey × RID)) (k : RawKey) (rid : RID) (root' : Nat)
    (s' : PageFile RawKey τ) : Prop where
  stays : Stays own s s'
  tree : ∃ es', es'.Perm ((k, rid) :: es) ∧ ColumnTree C keyType (claimed own s s') s' root' es'

/-- An insertion takes the key, or refuses it without a trace. -/
theorem ColumnTree.insert_enters (h : ColumnTree C keyType own s root es)
    (hx : Enters C keyType x k) (hrid : ridFits rid)
    (hroom : ((insert (.ofColumn C keyType) false root x rid).after s).length ≤ 2 ^ 32) :
    (∃ root' s', insert (.ofColumn C keyType) false root x rid s = .ok root' s' ∧
      ColumnTook C keyType own s es k rid root' s') ∨
    ∃ e, insert (.ofColumn C keyType) false root x rid s = .error e s := by
  cases keyType with
  | int =>
    refine (KeyTree.insert_enters h (KeyOrder.exact_int C) hx hrid hroom).imp ?_ id
    rintro ⟨root', s', hrun, htook⟩
    exact ⟨root', s', hrun, htook.stays, htook.tree⟩
  | text =>
    refine (KeyTree.insert_enters h (KeyOrder.exact_text C) hx hrid hroom).imp ?_ id
    rintro ⟨root', s', hrun, htook⟩
    exact ⟨root', s', hrun, htook.stays, htook.tree⟩
  | float => cases h
  | bool => cases h

/-- A key that a search finds less often than a leaf holds entries is taken. -/
theorem ColumnTree.insert_of_search {rids : List RID} (h : ColumnTree C keyType own s root es)
    (hx : Enters C keyType x k) (hrid : ridFits rid)
    (hroom : ((insert (.ofColumn C keyType) false root x rid).after s).length ≤ 2 ^ 32)
    (hsearch : search (.ofColumn C keyType) root x s = .ok rids s)
    (hfew : rids.length < maxLeafKeys (.ofColumn C keyType)) :
    ∃ root' s', insert (.ofColumn C keyType) false root x rid s = .ok root' s' := by
  cases keyType with
  | int => exact KeyTree.insert_of_search h (KeyOrder.exact_int C) hx hrid hroom hsearch hfew
  | text => exact KeyTree.insert_of_search h (KeyOrder.exact_text C) hx hrid hroom hsearch hfew
  | float => cases h
  | bool => cases h

end BPlusTree
end Minirel

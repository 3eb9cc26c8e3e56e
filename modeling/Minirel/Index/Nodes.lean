-- SUMMARY: The order behind the keys of a tree, what `bisect` finds in a sorted list, and reading and writing nodes.
import Minirel.Index.Btree
import Minirel.Lib.Row
import Mathlib.Order.Lattice
import Mathlib.Order.Defs.LinearOrder

/-!
# Keys and nodes

A `KeyOrder` is what a tree relies on about its keys: the comparisons it makes
agree with a linear order, and a stored key survives being decoded and encoded
again. Everything about the tree is then said of encoded keys and their ranks.
-/

namespace Minirel

variable {κ ε τ R : Type} [LinearOrder R] {K : KeyType κ ε}

/-- The linear order behind the keys of a tree. Keys that can be compared have a
    rank; stored keys can be compared and keep their encoding. -/
structure KeyOrder (K : KeyType κ ε) (R : Type) [LinearOrder R] where
  rank : κ → R
  val : ε → κ
  Comparable : κ → Prop
  Stored : ε → Prop
  keySize_le : K.keySize ≤ 1016
  lt_eq {a b : κ} : Comparable a → Comparable b → K.lt a b = .ok (decide (rank a < rank b))
  eq_eq {a b : κ} : Comparable a → Comparable b → K.eq a b = decide (rank a = rank b)
  comparable_val {e : ε} : Stored e → Comparable (val e)
  decode_eq {e : ε} : Stored e → K.decodeKey e = .ok (val e)
  encode_val {e : ε} : Stored e → K.encodeKey (val e) = .ok e

/-- Native integers: those of the signed 64-bit range can be stored. -/
def KeyOrder.int : KeyOrder KeyType.int Int where
  rank := id
  val := id
  Comparable _ := True
  Stored k := -2 ^ 63 ≤ k ∧ k < 2 ^ 63
  keySize_le := by decide
  lt_eq _ _ := rfl
  eq_eq _ _ := rfl
  comparable_val _ := trivial
  decode_eq _ := rfl
  encode_val h := if_pos h

namespace KeyOrder

/-- The rank of a stored key. -/
def rk (O : KeyOrder K R) (e : ε) : R := O.rank (O.val e)

/-- A stored key with what goes with it, decoded. -/
def dec {β : Type} (O : KeyOrder K R) (x : ε × β) : κ × β := (O.val x.1, x.2)

end KeyOrder

variable {O : KeyOrder K R}

/-! ## What `bisect` finds -/

theorem bisect_eq {below : κ → Except PyError Bool} {l r : List κ}
    (hl : ∀ y ∈ l, below y = .ok true) (hr : ∀ y ∈ r, below y = .ok false) (fuel : Nat) :
    ∀ lo hi, hi ≤ lo + fuel → lo ≤ l.length → l.length ≤ hi → hi ≤ (l ++ r).length →
      bisect below (l ++ r) fuel lo hi = .ok l.length := by
  induction fuel with
  | zero =>
    intro lo hi hfuel hlo hhi _
    simp only [bisect, Except.ok.injEq]
    omega
  | succ fuel ih =>
    intro lo hi hfuel hlo hhi hlen
    unfold bisect
    by_cases hlt : lo < hi
    · have hmid : (lo + hi) / 2 < (l ++ r).length := by omega
      rw [if_pos hlt, List.getElem?_eq_getElem hmid]
      by_cases hm : (lo + hi) / 2 < l.length
      · have hy := hl _ (List.getElem_mem hm)
        rw [List.getElem_append_left hm]
        simp only [hy, bind, Except.bind, if_true]
        exact ih _ _ (by omega) (by omega) hhi hlen
      · have hm' : (lo + hi) / 2 - l.length < r.length := by
          rw [List.length_append] at hmid
          omega
        have hy := hr _ (List.getElem_mem hm')
        rw [List.getElem_append_right (by omega)]
        simp only [hy, bind, Except.bind, Bool.false_eq_true, if_false]
        exact ih _ _ (by omega) hlo (by omega) (by omega)
    · rw [if_neg hlt]
      simp only [Except.ok.injEq]
      omega

theorem bisectRight_eq {x : κ} {l r : List ε} (hx : O.Comparable x)
    (hst : ∀ e ∈ l ++ r, O.Stored e) (hl : ∀ e ∈ l, O.rk e ≤ O.rank x)
    (hr : ∀ e ∈ r, O.rank x < O.rk e) :
    bisectRight K ((l ++ r).map O.val) x = .ok l.length := by
  rw [bisectRight, List.map_append]
  refine Eq.trans (bisect_eq ?_ ?_ _ 0 _ (by simp) (Nat.zero_le _) (by simp) le_rfl) (by simp)
  · intro y hy
    obtain ⟨e, he, rfl⟩ := List.mem_map.mp hy
    have hc := O.comparable_val (hst e (List.mem_append_left _ he))
    simpa [O.lt_eq hx hc, bind, Except.bind, pure, Except.pure, KeyOrder.rk] using hl e he
  · intro y hy
    obtain ⟨e, he, rfl⟩ := List.mem_map.mp hy
    have hc := O.comparable_val (hst e (List.mem_append_right _ he))
    simpa [O.lt_eq hx hc, bind, Except.bind, pure, Except.pure, KeyOrder.rk] using hr e he

theorem bisectLeft_eq {x : κ} {l r : List ε} (hx : O.Comparable x)
    (hst : ∀ e ∈ l ++ r, O.Stored e) (hl : ∀ e ∈ l, O.rk e < O.rank x)
    (hr : ∀ e ∈ r, O.rank x ≤ O.rk e) :
    bisectLeft K ((l ++ r).map O.val) x = .ok l.length := by
  rw [bisectLeft, List.map_append]
  refine Eq.trans (bisect_eq ?_ ?_ _ 0 _ (by simp) (Nat.zero_le _) (by simp) le_rfl) (by simp)
  · intro y hy
    obtain ⟨e, he, rfl⟩ := List.mem_map.mp hy
    have hc := O.comparable_val (hst e (List.mem_append_left _ he))
    simp only [O.lt_eq hc hx, Except.ok.injEq, decide_eq_true_eq]
    exact hl e he
  · intro y hy
    obtain ⟨e, he, rfl⟩ := List.mem_map.mp hy
    have hc := O.comparable_val (hst e (List.mem_append_right _ he))
    simp only [O.lt_eq hc hx, Except.ok.injEq, decide_eq_false_iff_not, not_lt]
    exact hr e he

/-- A list sorted by rank, cut below a rank. -/
theorem exists_cut_lt {β : Type} {f : β → R} {l : List β}
    (h : l.Pairwise (fun a b => f a ≤ f b)) (x : R) :
    ∃ l₁ l₂, l = l₁ ++ l₂ ∧ (∀ a ∈ l₁, f a < x) ∧ ∀ a ∈ l₂, x ≤ f a := by
  induction l with
  | nil => exact ⟨[], [], rfl, by simp, by simp⟩
  | cons a l ih =>
    rw [List.pairwise_cons] at h
    obtain ⟨l₁, l₂, rfl, h₁, h₂⟩ := ih h.2
    by_cases ha : f a < x
    · refine ⟨a :: l₁, l₂, rfl, fun b hb => ?_, h₂⟩
      obtain rfl | hb := List.mem_cons.mp hb
      · exact ha
      · exact h₁ b hb
    · refine ⟨[], a :: (l₁ ++ l₂), rfl, by simp, fun b hb => ?_⟩
      obtain rfl | hb := List.mem_cons.mp hb
      · exact not_lt.mp ha
      · exact (not_lt.mp ha).trans (h.1 b hb)

/-- A list sorted by rank, cut above a rank. -/
theorem exists_cut_le {β : Type} {f : β → R} {l : List β}
    (h : l.Pairwise (fun a b => f a ≤ f b)) (x : R) :
    ∃ l₁ l₂, l = l₁ ++ l₂ ∧ (∀ a ∈ l₁, f a ≤ x) ∧ ∀ a ∈ l₂, x < f a := by
  induction l with
  | nil => exact ⟨[], [], rfl, by simp, by simp⟩
  | cons a l ih =>
    rw [List.pairwise_cons] at h
    obtain ⟨l₁, l₂, rfl, h₁, h₂⟩ := ih h.2
    by_cases ha : f a ≤ x
    · refine ⟨a :: l₁, l₂, rfl, fun b hb => ?_, h₂⟩
      obtain rfl | hb := List.mem_cons.mp hb
      · exact ha
      · exact h₁ b hb
    · refine ⟨[], a :: (l₁ ++ l₂), rfl, by simp, fun b hb => ?_⟩
      obtain rfl | hb := List.mem_cons.mp hb
      · exact not_le.mp ha
      · exact (not_le.mp ha).trans_le (h.1 b hb)

/-! ## Positions in lists -/

theorem pyIndex_eq {l₁ : List Nat} (l₂ : List Nat) {x : Nat} (h : x ∉ l₁) :
    pyIndex (l₁ ++ x :: l₂) x = .ok l₁.length := by
  have hidx : (l₁ ++ x :: l₂).idxOf? x = some l₁.length := by
    rw [List.idxOf?, List.findIdx?_eq_some_iff_getElem]
    refine ⟨by simp, by simp, fun j hj => ?_⟩
    rw [List.getElem_append_left hj]
    simp only [Bool.not_eq_true, beq_eq_false_iff_ne, ne_eq]
    rintro rfl
    exact h (List.getElem_mem hj)
  simp [pyIndex, hidx]

theorem pyInsert_append {α : Type} (l₁ l₂ : List α) (x : α) :
    pyInsert (l₁ ++ l₂) l₁.length x = l₁ ++ x :: l₂ := by
  simp [pyInsert]

theorem pyInsert_append_cons {α : Type} (l₁ l₂ : List α) (a x : α) :
    pyInsert (l₁ ++ a :: l₂) (l₁.length + 1) x = l₁ ++ a :: x :: l₂ := by
  have h := pyInsert_append (l₁ ++ [a]) l₂ x
  simpa using h

theorem drop_append_cons {α : Type} (l₁ l₂ : List α) (a : α) :
    (l₁ ++ a :: l₂).drop (l₁.length + 1) = l₂ := by
  simp

@[simp] theorem pyGet_append {α : Type} (l₁ l₂ : List α) (a : α) :
    pyGet (l₁ ++ a :: l₂) l₁.length = .ok a := by
  simp [pyGet]

namespace BPlusTree

/-! ## Laying out keys -/

/-- Laying out stored keys fails exactly when they reach beyond the page or what
    goes with one does not fit. -/
theorem packPairs_dec {β : Type} (size : Nat) (fits : β → Bool) {offset : Nat} {xs : List (ε × β)}
    (h : ∀ x ∈ xs, O.Stored x.1) (ho : offset ≤ pageSize) :
    packPairs K size fits offset (xs.map O.dec) =
      if offset + xs.length * (K.keySize + size) ≤ pageSize ∧ ∀ x ∈ xs, fits x.2 then .ok xs
      else .error .structError := by
  induction xs generalizing offset with
  | nil => simpa [packPairs] using ho
  | cons x xs ih =>
    rw [List.forall_mem_cons] at h
    simp only [List.map_cons, packPairs, KeyOrder.dec, O.encode_val h.1, List.length_cons,
      List.forall_mem_cons, Nat.add_mul, Nat.one_mul]
    by_cases hx : offset + K.keySize + size ≤ pageSize ∧ fits x.2
    · have hrest := ih h.2 hx.1
      have harith : offset + K.keySize + size + xs.length * (K.keySize + size) =
          offset + (xs.length * (K.keySize + size) + (K.keySize + size)) := by omega
      rw [harith] at hrest
      simp only [bind, Except.bind, hx, and_self, if_true, true_and]
      rw [hrest]
      by_cases hc : offset + (xs.length * (K.keySize + size) + (K.keySize + size)) ≤ pageSize ∧
          ∀ y ∈ xs, fits y.2
      · simp only [if_pos hc]
        rfl
      · simp only [if_neg hc]
    · simp only [bind, Except.bind, if_neg hx]
      rw [if_neg (fun hc => hx ⟨by omega, hc.2.1⟩)]
      rfl

theorem mapM_dec {β : Type} {xs : List (ε × β)} (h : ∀ x ∈ xs, O.Stored x.1) :
    (xs.mapM fun x => (return (← K.decodeKey x.1, x.2) : Except PyError (κ × β))) =
      .ok (xs.map O.dec) := by
  induction xs with
  | nil => rfl
  | cons x xs ih =>
    rw [List.forall_mem_cons] at h
    rw [List.mapM_cons, O.decode_eq h.1, ih h.2]
    rfl

theorem mapM_val {β : Type} {xs : List (ε × β)} (h : ∀ x ∈ xs, O.Stored x.1) :
    (xs.mapM fun x => K.decodeKey x.1) = .ok (xs.map fun x => O.val x.1) := by
  induction xs with
  | nil => rfl
  | cons x xs ih =>
    rw [List.forall_mem_cons] at h
    rw [List.mapM_cons, O.decode_eq h.1, ih h.2]
    rfl

/-! ## Leaves -/

/-- Entries and a next pointer that can be laid out on a leaf. -/
structure LeafFits (O : KeyOrder K R) (es : List (ε × RID)) (nx : Nat) : Prop where
  stored : ∀ x ∈ es, O.Stored x.1
  rids : ∀ x ∈ es, ridFits x.2
  next : childFits nx

theorem LeafFits.of_subset {es es' : List (ε × RID)} {nx nx' : Nat} (h : LeafFits O es nx)
    (hsub : es' ⊆ es) (hnx' : childFits nx') : LeafFits O es' nx' :=
  ⟨fun x hx => h.stored x (hsub hx), fun x hx => h.rids x (hsub hx), hnx'⟩

theorem LeafFits.insert {l r : List (ε × RID)} {nx : Nat} {k : ε} {rid : RID}
    (h : LeafFits O (l ++ r) nx) (hk : O.Stored k) (hrid : ridFits rid) :
    LeafFits O (l ++ (k, rid) :: r) nx := by
  obtain ⟨hl, hr⟩ := List.forall_mem_append.mp h.stored
  obtain ⟨hl', hr'⟩ := List.forall_mem_append.mp h.rids
  exact ⟨List.forall_mem_append.mpr ⟨hl, List.forall_mem_cons.mpr ⟨hk, hr⟩⟩,
    List.forall_mem_append.mpr ⟨hl', List.forall_mem_cons.mpr ⟨hrid, hr'⟩⟩, h.next⟩

theorem LeafFits.append {es es' : List (ε × RID)} {nx nx' : Nat} (h : LeafFits O es nx)
    (h' : LeafFits O es' nx') : LeafFits O (es ++ es') nx' :=
  ⟨List.forall_mem_append.mpr ⟨h.stored, h'.stored⟩, List.forall_mem_append.mpr ⟨h.rids, h'.rids⟩,
    h'.next⟩

theorem readLeaf_eq {es : List (ε × RID)} {nx : Nat} (h : ∀ x ∈ es, O.Stored x.1) :
    readLeaf K (.leaf es nx : Page ε τ) = .ok (es.map O.dec, nx) := by
  simp only [readLeaf]
  rw [mapM_dec h]
  rfl

theorem le_maxLeafKeys_iff (O : KeyOrder K R) {n : Nat} :
    n ≤ maxLeafKeys K ↔ leafHeader + n * (K.keySize + ridSize) ≤ pageSize := by
  have hk := O.keySize_le
  have hdiv : n ≤ (pageSize - leafHeader) / (K.keySize + ridSize) ↔
      n * (K.keySize + ridSize) ≤ pageSize - leafHeader :=
    Nat.le_div_iff_mul_le (by simp [ridSize])
  have h4 : 4 ≤ (pageSize - leafHeader) / (K.keySize + ridSize) := by
    rw [Nat.le_div_iff_mul_le (by simp [ridSize])]
    simp only [pageSize, leafHeader, ridSize]
    omega
  rw [maxLeafKeys, max_eq_right h4, hdiv]
  simp only [pageSize, leafHeader]
  omega

theorem maxLeafKeys_lt : maxLeafKeys K < 2 ^ 16 := by
  have hdiv := Nat.div_le_self (pageSize - leafHeader) (K.keySize + ridSize)
  simp only [pageSize, leafHeader] at hdiv
  simp only [maxLeafKeys, pageSize, leafHeader]
  omega

/-- Writing a leaf succeeds exactly when the leaf has room for its entries. -/
theorem writeLeaf_dec {es : List (ε × RID)} {nx : Nat} (h : LeafFits O es nx) (pageId : Nat)
    (s : PageFile ε τ) :
    writeLeaf K pageId (es.map O.dec) nx s =
      if es.length ≤ maxLeafKeys K then .ok () (s.set pageId (.leaf es nx))
      else .error .structError (s.set pageId .torn) := by
  have hpack := packPairs_dec ridSize ridFits h.stored (by decide : leafHeader ≤ pageSize)
  rw [if_congr (and_iff_left h.rids) rfl rfl, if_congr (le_maxLeafKeys_iff O).symm rfl rfl] at hpack
  simp only [writeLeaf, packEntries, hpack, List.length_map]
  by_cases hlen : es.length ≤ maxLeafKeys K
  · have hlt := hlen.trans_lt maxLeafKeys_lt
    rw [if_pos hlen, if_pos hlen, if_pos ⟨hlt, h.next⟩]
    rfl
  · simp only [if_neg hlen]
    split <;> rfl

/-- Writing a leaf that has room, by its decoded entries. -/
theorem writeLeaf_eq {es : List (ε × RID)} {nx pageId : Nat} {entries : List (κ × RID)}
    (h : LeafFits O es nx) (hlen : es.length ≤ maxLeafKeys K) (hentries : entries = es.map O.dec)
    (s : PageFile ε τ) :
    writeLeaf K pageId entries nx s = .ok () (s.set pageId (.leaf es nx)) := by
  rw [hentries, writeLeaf_dec h, if_pos hlen]

/-- What a leaf write that returns has written. -/
theorem writeLeaf_eq_ok {es : List (ε × RID)} {nx pageId : Nat} {s s' : PageFile ε τ}
    (hst : ∀ x ∈ es, O.Stored x.1) (h : writeLeaf K pageId (es.map O.dec) nx s = .ok () s') :
    LeafFits O es nx ∧ es.length ≤ maxLeafKeys K ∧ s' = s.set pageId (.leaf es nx) := by
  have hpack := packPairs_dec ridSize ridFits hst (by decide : leafHeader ≤ pageSize)
  obtain ⟨page, hpage, rfl⟩ := putPage_eq_ok.mp h
  simp only [packEntries, hpack] at hpage
  split at hpage
  · rename_i hhead
    split at hpage
    · rename_i hfit
      cases hpage
      exact ⟨⟨hst, hfit.2, hhead.2⟩, (le_maxLeafKeys_iff O).mpr hfit.1, rfl⟩
    · cases hpage
  · cases hpage

/-- What could be packed into bytes fits them. -/
theorem packPairs_ok {β : Type} {size : Nat} {fits : β → Bool} {offset : Nat} {l : List (κ × β)}
    {raws : List (ε × β)} (h : packPairs K size fits offset l = .ok raws) :
    ∀ a ∈ l, (∃ raw, K.encodeKey a.1 = .ok raw) ∧ fits a.2 := by
  induction l generalizing offset raws with
  | nil => simp
  | cons a l ih =>
    simp only [packPairs] at h
    obtain ⟨raw, hraw, h⟩ := bind_eq_ok.mp h
    split at h
    · rename_i hfit
      obtain ⟨raws', hrest, -⟩ := bind_eq_ok.mp h
      exact List.forall_mem_cons.mpr ⟨⟨⟨raw, hraw⟩, hfit.2⟩, ih hrest⟩
    · cases h

/-- The keys and RIDs that a leaf write returned for fit their bytes. -/
theorem writeLeaf_ok_fits {entries : List (κ × RID)} {nx pageId : Nat} {s s' : PageFile ε τ}
    (h : writeLeaf K pageId entries nx s = .ok () s') :
    ∀ a ∈ entries, (∃ raw, K.encodeKey a.1 = .ok raw) ∧ ridFits a.2 := by
  obtain ⟨page, hpage, -⟩ := putPage_eq_ok.mp h
  split at hpage
  · obtain ⟨raws, hpack, -⟩ := bind_eq_ok.mp hpage
    exact packPairs_ok hpack
  · cases hpage

/-! ## Internal nodes -/

/-- Keys and children that can be laid out on an internal node. -/
structure InternalFits (O : KeyOrder K R) (child : Nat) (rest : List (ε × Nat)) : Prop where
  stored : ∀ x ∈ rest, O.Stored x.1
  first : childFits child
  children : ∀ x ∈ rest, childFits x.2

/-- Two internal nodes with a separator between them, as one. -/
theorem internalFits_join {child c : Nat} {k : ε} {r₁ r₂ : List (ε × Nat)} :
    InternalFits O child (r₁ ++ (k, c) :: r₂) ↔
      InternalFits O child r₁ ∧ O.Stored k ∧ InternalFits O c r₂ := by
  constructor
  · rintro ⟨hst, hfirst, hchildren⟩
    rw [List.forall_mem_append, List.forall_mem_cons] at hst hchildren
    exact ⟨⟨hst.1, hfirst, hchildren.1⟩, hst.2.1, ⟨hst.2.2, hchildren.2.1, hchildren.2.2⟩⟩
  · rintro ⟨h₁, hk, h₂⟩
    refine ⟨?_, h₁.first, ?_⟩
    · exact List.forall_mem_append.mpr ⟨h₁.stored, List.forall_mem_cons.mpr ⟨hk, h₂.stored⟩⟩
    · exact List.forall_mem_append.mpr ⟨h₁.children,
        List.forall_mem_cons.mpr ⟨h₂.first, h₂.children⟩⟩

theorem internalFits_nil {child : Nat} : InternalFits O child [] ↔ childFits child :=
  ⟨fun h => h.first, fun h => ⟨by simp, h, by simp⟩⟩

theorem internalFits_zip {ls : List (Nat × ε)} {a : Nat} {rs : List (ε × Nat)} :
    InternalFits O (Row.zipFirst ls a) (Row.zipRest ls a rs) ↔
      (∀ x ∈ ls, childFits x.1 ∧ O.Stored x.2) ∧ childFits a ∧
        ∀ x ∈ rs, O.Stored x.1 ∧ childFits x.2 := by
  have hstored : (∀ x ∈ Row.zipRest ls a rs, O.Stored x.1) ↔ _ := Row.forall_zipRest_fst
  have hchildren : (childFits (Row.zipFirst ls a) = true ∧
      ∀ x ∈ Row.zipRest ls a rs, childFits x.2 = true) ↔ _ :=
    Row.forall_zip_snd (P := (childFits · = true))
  constructor
  · intro h
    obtain ⟨h₁, h₂⟩ := hstored.mp h.stored
    obtain ⟨h₃, h₄, h₅⟩ := hchildren.mp ⟨h.first, h.children⟩
    exact ⟨fun x hx => ⟨h₃ x hx, h₁ x hx⟩, h₄, fun x hx => ⟨h₂ x hx, h₅ x hx⟩⟩
  · rintro ⟨h₁, h₂, h₃⟩
    obtain ⟨h₄, h₅⟩ := hchildren.mpr ⟨fun x hx => (h₁ x hx).1, h₂, fun x hx => (h₃ x hx).2⟩
    exact ⟨hstored.mpr ⟨fun x hx => (h₁ x hx).2, fun x hx => (h₃ x hx).1⟩, h₄, h₅⟩

/-- An internal node with one more child. -/
theorem InternalFits.insert {ls : List (Nat × ε)} {a q : Nat} {k : ε} {rs : List (ε × Nat)}
    (h : InternalFits O (Row.zipFirst ls a) (Row.zipRest ls a rs)) (hk : O.Stored k) (hq : childFits q) :
    InternalFits O (Row.zipFirst ls a) (Row.zipRest ls a ((k, q) :: rs)) := by
  obtain ⟨hls, ha, hrs⟩ := internalFits_zip.mp h
  exact internalFits_zip.mpr ⟨hls, ha, List.forall_mem_cons.mpr ⟨⟨hk, hq⟩, hrs⟩⟩

theorem readInternal_eq {child : Nat} {rest : List (ε × Nat)} (h : ∀ x ∈ rest, O.Stored x.1) :
    readInternal K (.internal child rest : Page ε τ) =
      .ok (child :: rest.map (·.2), rest.map fun x => O.val x.1) := by
  simp only [readInternal]
  rw [mapM_val h]
  rfl

theorem map_val_zipRest (O : KeyOrder K R) (ls : List (Nat × ε)) (a : Nat) (rs : List (ε × Nat)) :
    (Row.zipRest ls a rs).map (fun x => O.val x.1) =
      (ls.map fun x => O.val x.2) ++ rs.map fun x => O.val x.1 := by
  have hkeys := congrArg (List.map O.val) (Row.map_fst_zipRest ls a rs)
  simpa only [List.map_map, List.map_append, Function.comp_def] using hkeys

/-- The children and keys of an internal node, one child set apart. -/
theorem readInternal_zip {ls : List (Nat × ε)} {a : Nat} {rs : List (ε × Nat)}
    (h : ∀ x ∈ Row.zipRest ls a rs, O.Stored x.1) :
    readInternal K (.internal (Row.zipFirst ls a) (Row.zipRest ls a rs) : Page ε τ) =
      .ok (ls.map (·.1) ++ a :: rs.map (·.2),
        (ls.map fun x => O.val x.2) ++ rs.map fun x => O.val x.1) := by
  rw [readInternal_eq h, Row.cons_map_snd_zipRest, map_val_zipRest]

theorem le_maxInternalKeys_iff (O : KeyOrder K R) {n : Nat} :
    n ≤ maxInternalKeys K ↔
      internalHeader + childSize + n * (K.keySize + childSize) ≤ pageSize := by
  have hk := O.keySize_le
  have hdiv : n ≤ (pageSize - internalHeader - childSize) / (K.keySize + childSize) ↔
      n * (K.keySize + childSize) ≤ pageSize - internalHeader - childSize :=
    Nat.le_div_iff_mul_le (by simp [childSize])
  have h4 : 4 ≤ (pageSize - internalHeader - childSize) / (K.keySize + childSize) := by
    rw [Nat.le_div_iff_mul_le (by simp [childSize])]
    simp only [pageSize, internalHeader, childSize]
    omega
  rw [maxInternalKeys, max_eq_right h4, hdiv]
  simp only [pageSize, internalHeader, childSize]
  omega

theorem maxInternalKeys_lt : maxInternalKeys K < 2 ^ 16 := by
  have hdiv := Nat.div_le_self (pageSize - internalHeader - childSize) (K.keySize + childSize)
  simp only [pageSize, internalHeader, childSize] at hdiv
  simp only [maxInternalKeys, pageSize, internalHeader, childSize]
  omega

theorem zip_children {rest : List (ε × Nat)} :
    (rest.map fun x => O.val x.1).zip (rest.map (·.2)) = rest.map O.dec := by
  induction rest with
  | nil => rfl
  | cons x rest ih => simp [ih, KeyOrder.dec]

/-- Writing an internal node succeeds exactly when it has room for its keys. -/
theorem writeInternal_dec {child : Nat} {rest : List (ε × Nat)} (h : InternalFits O child rest)
    (pageId : Nat) (s : PageFile ε τ) :
    writeInternal K pageId (child :: rest.map (·.2)) (rest.map fun x => O.val x.1) s =
      if rest.length ≤ maxInternalKeys K then .ok () (s.set pageId (.internal child rest))
      else .error .structError (s.set pageId .torn) := by
  have hpack := packPairs_dec childSize childFits h.stored
    (by decide : internalHeader + childSize ≤ pageSize)
  rw [if_congr (and_iff_left h.children) rfl rfl,
    if_congr (le_maxInternalKeys_iff O).symm rfl rfl] at hpack
  simp only [writeInternal, packChildren, List.drop_succ_cons, List.drop_zero, zip_children, hpack,
    List.length_map]
  by_cases hlen : rest.length ≤ maxInternalKeys K
  · have hlt := hlen.trans_lt maxInternalKeys_lt
    simp only [pyGet, List.getElem?_cons_zero, bind, Except.bind]
    rw [if_pos hlen, if_pos hlen, if_pos ⟨hlt, h.first⟩]
    rfl
  · simp only [if_neg hlen, pyGet, List.getElem?_cons_zero, bind, Except.bind]
    split <;> rfl

/-- Writing an internal node that has room, by its children and keys. -/
theorem writeInternal_eq {child pageId : Nat} {rest : List (ε × Nat)} {children : List Nat}
    {keys : List κ} (h : InternalFits O child rest) (hlen : rest.length ≤ maxInternalKeys K)
    (hchildren : children = child :: rest.map (·.2)) (hkeys : keys = rest.map fun x => O.val x.1)
    (s : PageFile ε τ) :
    writeInternal K pageId children keys s = .ok () (s.set pageId (.internal child rest)) := by
  rw [hchildren, hkeys, writeInternal_dec h, if_pos hlen]

/-- What a write of an internal node that returns has written. -/
theorem writeInternal_eq_ok {child : Nat} {rest : List (ε × Nat)} {pageId : Nat}
    {s s' : PageFile ε τ} (hst : ∀ x ∈ rest, O.Stored x.1)
    (h : writeInternal K pageId (child :: rest.map (·.2)) (rest.map fun x => O.val x.1) s =
      .ok () s') :
    InternalFits O child rest ∧ rest.length ≤ maxInternalKeys K ∧
      s' = s.set pageId (.internal child rest) := by
  have hpack := packPairs_dec childSize childFits hst
    (by decide : internalHeader + childSize ≤ pageSize)
  obtain ⟨page, hpage, rfl⟩ := putPage_eq_ok.mp h
  simp only [packChildren, List.drop_succ_cons, List.drop_zero, zip_children, hpack, pyGet,
    List.getElem?_cons_zero, bind, Except.bind] at hpage
  split at hpage
  · rename_i hhead
    split at hpage
    · cases hpage
    · rename_i hfit
      split at hfit
      · rename_i hfit'
        cases hfit
        cases hpage
        exact ⟨⟨hst, hhead.2, hfit'.2⟩, (le_maxInternalKeys_iff O).mpr hfit'.1, rfl⟩
      · cases hfit
  · cases hpage

end BPlusTree
end Minirel

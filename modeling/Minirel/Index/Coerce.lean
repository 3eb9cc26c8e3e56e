-- SUMMARY: Keys that a tree cannot tell apart are inserted alike.
import Minirel.Index.Insert

/-!
# Keys of another type

A tree compares the key it is given and stores what encoding it yields: `True` or `2.0`
for an INT key. Where the two agree in rank, the insertion does what it does for the
stored key itself.
-/

namespace Minirel

variable {κ ε τ R : Type} [LinearOrder R] {K : KeyType κ ε} {O : KeyOrder K R}

/-- A key that is stored as `k` and stands where `k` stands. -/
structure KeyOrder.StoredAs (O : KeyOrder K R) (x : κ) (k : ε) : Prop where
  comparable : O.Comparable x
  stored : O.Stored k
  rank_eq : O.rank x = O.rk k
  encode_eq : K.encodeKey x = .ok k

theorem KeyOrder.storedAs_val {k : ε} (h : O.Stored k) : O.StoredAs (O.val k) k :=
  ⟨O.comparable_val h, h, rfl, O.encode_val h⟩

theorem map_pyInsert {α β : Type} (f : α → β) (l : List α) (i : Nat) (x : α) :
    (pyInsert l i x).map f = pyInsert (l.map f) i (f x) := by
  simp [pyInsert, List.map_take, List.map_drop]

/-- Subscripting two lists that are the same under `f`. -/
theorem pyGet_congr {α β : Type} {f : α → β} {l l' : List α} (h : l.map f = l'.map f) (i : Nat) :
    (∃ x x', pyGet l i = .ok x ∧ pyGet l' i = .ok x' ∧ f x = f x' ∧ x ∈ l ∧ x' ∈ l') ∨
      (pyGet l i = .error .indexError ∧ pyGet l' i = .error .indexError) := by
  have hi := congrArg (·[i]?) h
  simp only [List.getElem?_map] at hi
  unfold pyGet
  cases hl : l[i]? with
  | none =>
    cases hl' : l'[i]? with
    | none => exact .inr ⟨rfl, rfl⟩
    | some x' => simp [hl, hl'] at hi
  | some x =>
    cases hl' : l'[i]? with
    | none => simp [hl, hl'] at hi
    | some x' =>
      refine .inl ⟨x, x', rfl, rfl, by simpa [hl, hl'] using hi, ?_, ?_⟩
      · exact List.mem_of_getElem? hl
      · exact List.mem_of_getElem? hl'

namespace BPlusTree

open Row

variable {s s' : PageFile ε τ} {height : Nat → Option Nat} {root h p : Nat} {path : List Nat}
  {before after level : List (Item Nat ε)}

/-! ## Writing a node -/

/-- What is laid out depends on the encodings only. -/
theorem packPairs_congr {β : Type} {size : Nat} {fits : β → Bool} {l l' : List (κ × β)}
    (h : l.map (fun x => (K.encodeKey x.1, x.2)) = l'.map fun x => (K.encodeKey x.1, x.2))
    (offset : Nat) : packPairs K size fits offset l = packPairs K size fits offset l' := by
  induction l generalizing l' offset with
  | nil =>
    cases l' with
    | nil => rfl
    | cons x l' => simp at h
  | cons x l ih =>
    cases l' with
    | nil => simp at h
    | cons x' l' =>
      simp only [List.map_cons, List.cons.injEq, Prod.mk.injEq] at h
      simp only [packPairs, h.1.1, h.1.2, ih h.2]

theorem writeLeaf_congr {pageId nx : Nat} {es es' : List (κ × RID)}
    (h : es.map (fun x => (K.encodeKey x.1, x.2)) = es'.map fun x => (K.encodeKey x.1, x.2)) :
    (writeLeaf K pageId es nx : PageM ε τ Unit) = writeLeaf K pageId es' nx := by
  have hlen : es.length = es'.length := by simpa using congrArg List.length h
  simp only [writeLeaf, packEntries, packPairs_congr h, hlen]

theorem writeInternal_congr {pageId : Nat} {children : List Nat} {keys keys' : List κ}
    (h : keys.map K.encodeKey = keys'.map K.encodeKey) :
    (writeInternal K pageId children keys : PageM ε τ Unit) =
      writeInternal K pageId children keys' := by
  have hlen : keys.length = keys'.length := by simpa using congrArg List.length h
  have hzip : ∀ l : List κ, (l.zip (children.drop 1)).map (fun x => (K.encodeKey x.1, x.2)) =
      (l.map K.encodeKey).zip (children.drop 1) := fun l => by
    rw [List.zip_map_left]
    rfl
  have hpairs : (keys.zip (children.drop 1)).map (fun x => (K.encodeKey x.1, x.2)) =
      (keys'.zip (children.drop 1)).map fun x => (K.encodeKey x.1, x.2) := by
    rw [hzip, hzip, h]
  simp only [writeInternal, packChildren, hlen, packPairs_congr hpairs]

/-- `_insert_into_parent` compares no keys. -/
theorem insertIntoParent_congr {x x' : κ} (h : K.encodeKey x = K.encodeKey x') (root : Nat)
    (path : List Nat) (left right : Nat) :
    (insertIntoParent K root path left x right : PageM ε τ Nat) =
      insertIntoParent K root path left x' right := by
  induction path generalizing x x' left right with
  | nil =>
    simp only [insertIntoParent]
    congr 1
    funext newRootId
    have hkeys : [x].map K.encodeKey = [x'].map K.encodeKey := by simpa using h
    rw [writeInternal_congr hkeys]
  | cons parent path ih =>
    simp only [insertIntoParent]
    congr 1
    funext data
    congr 1
    funext node
    obtain ⟨children, keys⟩ := node
    congr 1
    funext idx
    have hkeys : (pyInsert keys idx x).map K.encodeKey = (pyInsert keys idx x').map K.encodeKey := by
      rw [map_pyInsert, map_pyInsert, h]
    have hlen : (pyInsert keys idx x).length = (pyInsert keys idx x').length := by
      simpa using congrArg List.length hkeys
    dsimp only
    rw [hlen]
    generalize pyInsert keys idx x = l at *
    generalize pyInsert keys idx x' = l' at *
    rw [writeInternal_congr hkeys]
    split
    · rfl
    · obtain ⟨y, y', hy, hy', hyy', -, -⟩ | ⟨hy, hy'⟩ := pyGet_congr hkeys (l'.length / 2)
      · rw [hy, hy', PageM.lift_ok_bind, PageM.lift_ok_bind]
        have hdrop : ∀ n, (l.drop n).map K.encodeKey = (l'.drop n).map K.encodeKey := fun n => by
          rw [List.map_drop, List.map_drop, hkeys]
        have htake : ∀ n, (l.take n).map K.encodeKey = (l'.take n).map K.encodeKey := fun n => by
          rw [List.map_take, List.map_take, hkeys]
        simp only [ih hyy', writeInternal_congr (hdrop _), writeInternal_congr (htake _)]
      · rw [hy, hy']
        rfl

/-! ## The leaf -/

theorem takeWhile_rank {l : List κ} {pivot : κ} (hl : ∀ x ∈ l, O.Comparable x)
    (hpivot : O.Comparable pivot) :
    (l.takeWhile (K.eq · pivot)).length =
      ((l.map O.rank).takeWhile fun r => decide (r = O.rank pivot)).length := by
  induction l with
  | nil => rfl
  | cons x l ih =>
    rw [List.forall_mem_cons] at hl
    simp only [List.map_cons, List.takeWhile_cons, O.eq_eq hl.1 hpivot]
    split <;> simp [ih hl.2]

/-- Where a leaf is cut depends on the ranks only. -/
theorem splitPoint_congr {l l' : List κ} (h : l.map O.rank = l'.map O.rank)
    (hl : ∀ x ∈ l, O.Comparable x) (hl' : ∀ x ∈ l', O.Comparable x) :
    splitPointAvoidingDuplicates K l = splitPointAvoidingDuplicates K l' := by
  have hlen : l.length = l'.length := by simpa using congrArg List.length h
  unfold splitPointAvoidingDuplicates
  simp only [hlen]
  obtain ⟨a, a', ha, ha', haa', hmem, hmem'⟩ | ⟨ha, ha'⟩ := pyGet_congr h (l'.length / 2)
  · obtain ⟨b, b', hb, hb', hbb', hbmem, hbmem'⟩ | ⟨hb, hb'⟩ := pyGet_congr h (l'.length / 2 - 1)
    · have hdrop : ∀ n, ((l.drop n).takeWhile (K.eq · b)).length =
          ((l'.drop n).takeWhile (K.eq · b')).length := fun n => by
        rw [takeWhile_rank (fun x hx => hl x (List.mem_of_mem_drop hx)) (hl b hbmem),
          takeWhile_rank (fun x hx => hl' x (List.mem_of_mem_drop hx)) (hl' b' hbmem'),
          List.map_drop, List.map_drop, h, hbb']
      have htake : ∀ n, ((l.take n).reverse.takeWhile (K.eq · b)).length =
          ((l'.take n).reverse.takeWhile (K.eq · b')).length := fun n => by
        rw [takeWhile_rank (fun x hx => hl x (List.mem_of_mem_take (List.mem_reverse.mp hx)))
            (hl b hbmem),
          takeWhile_rank (fun x hx => hl' x (List.mem_of_mem_take (List.mem_reverse.mp hx)))
            (hl' b' hbmem'),
          List.map_reverse, List.map_reverse, List.map_take, List.map_take, h, hbb']
      simp only [ha, ha', hb, hb', bind, Except.bind, O.eq_eq (hl a hmem) (hl b hbmem),
        O.eq_eq (hl' a' hmem') (hl' b' hbmem'), haa', hbb', hdrop, htake]
    · simp only [ha, ha', hb, hb', bind, Except.bind]
  · simp only [ha, ha', bind, Except.bind]

theorem insertInLeaf_congr {es es' : List (κ × RID)} {nx : Nat}
    (hencode : es.map (fun x => (K.encodeKey x.1, x.2)) =
      es'.map fun x => (K.encodeKey x.1, x.2))
    (hsplit : splitPointAvoidingDuplicates K (es.map (·.1)) =
      splitPointAvoidingDuplicates K (es'.map (·.1))) :
    (insertInLeaf K root path p es nx : PageM ε τ Nat) = insertInLeaf K root path p es' nx := by
  have hlen : es.length = es'.length := by simpa using congrArg List.length hencode
  have hdrop : ∀ n, (es.drop n).map (fun x => (K.encodeKey x.1, x.2)) =
      (es'.drop n).map fun x => (K.encodeKey x.1, x.2) := fun n => by
    rw [List.map_drop, List.map_drop, hencode]
  have htake : ∀ n, (es.take n).map (fun x => (K.encodeKey x.1, x.2)) =
      (es'.take n).map fun x => (K.encodeKey x.1, x.2) := fun n => by
    rw [List.map_take, List.map_take, hencode]
  unfold insertInLeaf
  simp only [hlen, hsplit, writeLeaf_congr hencode, writeLeaf_congr (hdrop _), writeLeaf_congr (htake _)]
  split
  · rfl
  · refine bind_congr fun mid => bind_congr fun newLeafId => bind_congr fun _ => bind_congr fun _ => ?_
    rcases pyGet_congr (hdrop mid) 0 with ⟨x, x', hx, hx', hxx', -, -⟩ | ⟨hx, hx'⟩
    · rw [hx, hx']
      exact insertIntoParent_congr (Prod.mk.inj hxx').1 root path p newLeafId
    · rw [hx, hx']

/-- A key that is stored as `k` is inserted as `k` is. -/
theorem Tree.insert_storedAs {x : κ} {k : ε} {rid : RID} (ht : Tree O s height root level)
    (hx : O.StoredAs x k) :
    insert K false root x rid s = insert K false root (O.val k) rid s := by
  obtain ⟨path, before, p, after, es, nx, hfind⟩ := ht.find_rank (O.rk k)
  have hf := hfind x hx.comparable hx.rank_eq
  have hf' := hfind (O.val k) (O.comparable_val hx.stored) rfl
  obtain ⟨l₀, m, r, rfl, hl₀, hm, hr, -, hhi⟩ := hf.cut ht.inOrder hx.comparable
  have hhi' : bisectRight K ((((l₀ ++ m) ++ r).map O.dec).map (·.1)) (O.val k) =
      .ok (l₀ ++ m).length := by
    have hstored : ∀ e ∈ (l₀ ++ m).map (·.1) ++ r.map (·.1), O.Stored e := by
      rw [← List.map_append]
      exact List.forall_mem_map.mpr hf.fits.stored
    have := bisectRight_eq (O := O) (x := O.val k) (O.comparable_val hx.stored) hstored
      (List.forall_mem_map.mpr fun a ha => by
        rw [← KeyOrder.rk, ← hx.rank_eq]
        obtain ha | ha := List.mem_append.mp ha
        · exact (hl₀ a ha).le
        · exact (hm a ha).le)
      (List.forall_mem_map.mpr fun a ha => by
        rw [← KeyOrder.rk, ← hx.rank_eq]
        exact hr a ha)
    simpa [KeyOrder.dec, Function.comp_def] using this
  rw [hf.insert_eq hhi rfl, hf'.insert_eq hhi' rfl]
  generalize l₀ ++ m = l at *
  have hencode : (l.map O.dec ++ (x, rid) :: r.map O.dec).map (fun x => (K.encodeKey x.1, x.2)) =
      (l.map O.dec ++ (O.val k, rid) :: r.map O.dec).map fun x => (K.encodeKey x.1, x.2) := by
    simp [hx.encode_eq, O.encode_val hx.stored]
  have hrank : ((l.map O.dec ++ (x, rid) :: r.map O.dec).map (·.1)).map O.rank =
      ((l.map O.dec ++ (O.val k, rid) :: r.map O.dec).map (·.1)).map O.rank := by
    simp [hx.rank_eq, KeyOrder.rk]
  have hcomp : ∀ y, O.Comparable y →
      ∀ z ∈ (l.map O.dec ++ (y, rid) :: r.map O.dec).map (·.1), O.Comparable z := by
    intro y hy z hz
    have hst := List.forall_mem_append.mp hf.fits.stored
    simp only [List.map_append, List.map_cons, List.map_map, List.mem_append, List.mem_cons,
      List.mem_map] at hz
    obtain ⟨a, ha, rfl⟩ | rfl | ⟨a, ha, rfl⟩ := hz
    · exact O.comparable_val (hst.1 a ha)
    · exact hy
    · exact O.comparable_val (hst.2 a ha)
  have hsplit := splitPoint_congr hrank (hcomp x hx.comparable)
    (hcomp (O.val k) (O.comparable_val hx.stored))
  generalize l.map O.dec ++ (x, rid) :: r.map O.dec = es at *
  generalize l.map O.dec ++ (O.val k, rid) :: r.map O.dec = es' at *
  rw [insertInLeaf_congr hencode hsplit]

end BPlusTree
end Minirel

-- SUMMARY: Every page that a returning deletion has written fits; when a deletion does not return.
import Minirel.Index.Multimap

/-!
# Deletion and the size of a page
-/

namespace Minirel.BPlusTree

variable {κ ε τ R : Type} [LinearOrder R] {K : KeyType κ ε}

/-- A node with no more keys than it may have, so that its bytes fit a page. -/
def NodeFits (K : KeyType κ ε) : Page ε τ → Prop
  | .leaf es _ => es.length ≤ maxLeafKeys K ∧
      leafHeader + es.length * (K.keySize + ridSize) ≤ pageSize
  | .internal _ rest => rest.length ≤ maxInternalKeys K ∧
      internalHeader + childSize + rest.length * (K.keySize + childSize) ≤ pageSize
  | _ => False

/-! ## Writes -/

theorem packPairs_length {β : Type} {size offset : Nat} {fits : β → Bool} {xs : List (κ × β)}
    {ys : List (ε × β)} (hoffset : offset ≤ pageSize)
    (h : packPairs K size fits offset xs = .ok ys) :
    offset + ys.length * (K.keySize + size) ≤ pageSize := by
  induction xs generalizing offset ys with
  | nil =>
    cases h
    simpa using hoffset
  | cons x xs ih =>
    obtain ⟨key, b⟩ := x
    simp only [packPairs, bind, Except.bind] at h
    split at h
    · cases h
    split at h
    · rename_i hfits
      split at h
      · cases h
      · rename_i ys' hpack
        cases h
        have := ih hfits.1 hpack
        rw [List.length_cons, Nat.add_mul]
        omega
    · cases h

theorem writes_writeLeaf (O : KeyOrder K R) (pageId : Nat) (entries : List (κ × RID))
    (nextLeaf : Nat) : Writes (NodeFits K) (writeLeaf K pageId entries nextLeaf : PageM ε τ Unit) := by
  refine .putPage fun page hpage => ?_
  split at hpage
  · cases hpack : packEntries K entries with
    | error e =>
      rw [hpack] at hpage
      cases hpage
    | ok es =>
      rw [hpack] at hpage
      cases hpage
      have hsize := packPairs_length (by decide) hpack
      exact ⟨(le_maxLeafKeys_iff O).mpr hsize, hsize⟩
  · cases hpage

theorem writes_writeInternal (O : KeyOrder K R) (pageId : Nat) (children : List Nat)
    (keys : List κ) :
    Writes (NodeFits K) (writeInternal K pageId children keys : PageM ε τ Unit) := by
  refine .putPage fun page hpage => ?_
  cases hfirst : pyGet children 0 with
  | error e =>
    rw [hfirst] at hpage
    cases hpage
  | ok first =>
    rw [hfirst] at hpage
    simp only [bind, Except.bind] at hpage
    split at hpage
    · cases hpack : packChildren K (keys.zip (children.drop 1)) with
      | error e =>
        rw [hpack] at hpage
        cases hpage
      | ok rest =>
        rw [hpack] at hpage
        cases hpage
        have hsize := packPairs_length (by decide) hpack
        exact ⟨(le_maxInternalKeys_iff O).mpr hsize, hsize⟩
    · cases hpage

section Writes
variable (O : KeyOrder K R)

theorem writes_findLeafPathFrom (key : κ) (fuel pageId : Nat) (path : List Nat) :
    Writes (NodeFits K) (findLeafPathFrom K key fuel pageId path : PageM ε τ (List Nat)) := by
  induction fuel generalizing pageId path with
  | zero => exact .throw _
  | succ fuel ih =>
    unfold findLeafPathFrom
    refine .bind (.fetchPage _) fun page => ?_
    split
    · exact .pure _
    · exact .bind (.lift _) fun _ => .bind (.lift _) fun _ => .bind (.lift _) fun _ => ih _ _

include O in
theorem writes_commitInternal (pageId : Nat) (children : List Nat) (keys : List κ) :
    Writes (NodeFits K) (commitInternal K pageId children keys : PageM ε τ Unit) :=
  .bind (.fetchPage _) fun _ => writes_writeInternal O _ _ _

include O in
theorem writes_borrowRightLeaf (parentId nodeId : Nat) (pChildren : List Nat) (pKeys : List κ)
    (idx : Nat) (entries : List (κ × RID)) (nextLeaf : Nat) :
    Writes (NodeFits K) (borrowRightLeaf K parentId nodeId pChildren pKeys idx entries nextLeaf :
      PageM ε τ Bool) := by
  unfold borrowRightLeaf
  split
  · exact .pure _
  · refine .bind (.fetchPage _) fun _ => .bind (.lift _) fun _ => ?_
    dsimp only
    split
    · exact .bind (writes_writeLeaf O _ _ _) fun _ => .bind (.fetchPage _) fun _ =>
        .bind (writes_writeLeaf O _ _ _) fun _ => .bind (.lift _) fun _ =>
        .bind (writes_commitInternal O _ _ _) fun _ => .pure _
    · exact .pure _

include O in
theorem writes_borrowLeftLeaf (parentId nodeId : Nat) (pChildren : List Nat) (pKeys : List κ)
    (idx : Nat) (entries : List (κ × RID)) (nextLeaf : Nat) :
    Writes (NodeFits K) (borrowLeftLeaf K parentId nodeId pChildren pKeys idx entries nextLeaf :
      PageM ε τ Bool) := by
  unfold borrowLeftLeaf
  split
  · exact .pure _
  · refine .bind (.lift _) fun _ => .bind (.fetchPage _) fun _ => .bind (.lift _) fun _ => ?_
    dsimp only
    split
    · exact .bind (writes_writeLeaf O _ _ _) fun _ => .bind (.fetchPage _) fun _ =>
        .bind (writes_writeLeaf O _ _ _) fun _ => .bind (.lift _) fun _ =>
        .bind (writes_commitInternal O _ _ _) fun _ => .pure _
    · exact .pure _

include O in
theorem writes_combineLeaves (parentId leftId rightId : Nat) (pChildren : List Nat) (pKeys : List κ)
    (idx : Nat) (combined : List (κ × RID)) (nextLeaf : Nat) :
    Writes (NodeFits K) (combineLeaves K parentId leftId rightId pChildren pKeys idx combined nextLeaf :
      PageM ε τ Unit) := by
  unfold combineLeaves
  split
  · exact .bind (.fetchPage _) fun _ => .bind (writes_writeLeaf O _ _ _) fun _ =>
      writes_commitInternal O _ _ _
  · exact .bind (.lift _) fun _ => .bind (.fetchPage _) fun _ =>
      .bind (writes_writeLeaf O _ _ _) fun _ => .bind (.fetchPage _) fun _ =>
      .bind (writes_writeLeaf O _ _ _) fun _ => .bind (.lift _) fun _ =>
      writes_commitInternal O _ _ _

include O in
theorem writes_fixupLeaf (parentId : Nat) (pChildren : List Nat) (pKeys : List κ) (idx : Nat) :
    Writes (NodeFits K) (fixupLeaf K parentId pChildren pKeys idx : PageM ε τ Unit) := by
  unfold fixupLeaf
  refine .bind (.lift _) fun _ => .bind (.fetchPage _) fun _ => .bind (.lift _) fun _ =>
    .bind (writes_borrowRightLeaf O _ _ _ _ _ _ _) fun _ => ?_
  split
  · exact .pure _
  refine .bind (writes_borrowLeftLeaf O _ _ _ _ _ _ _) fun _ => ?_
  split
  · exact .pure _
  split
  · exact .bind (.fetchPage _) fun _ => .bind (.lift _) fun _ =>
      writes_combineLeaves O _ _ _ _ _ _ _ _
  · split
    · exact .throw _
    · exact .bind (.lift _) fun _ => .bind (.fetchPage _) fun _ => .bind (.lift _) fun _ =>
        writes_combineLeaves O _ _ _ _ _ _ _ _

include O in
theorem writes_rotateRightInternal (parentId nodeId : Nat) (pChildren : List Nat) (pKeys : List κ)
    (idx : Nat) (children : List Nat) (keys : List κ) :
    Writes (NodeFits K) (rotateRightInternal K parentId nodeId pChildren pKeys idx children keys :
      PageM ε τ Bool) := by
  unfold rotateRightInternal
  split
  · exact .pure _
  · refine .bind (.fetchPage _) fun _ => .bind (.lift _) fun _ => ?_
    dsimp only
    split
    · exact .bind (.lift _) fun _ => .bind (.lift _) fun _ => .bind (.lift _) fun _ =>
        .bind (writes_writeInternal O _ _ _) fun _ => .bind (.fetchPage _) fun _ =>
        .bind (writes_writeInternal O _ _ _) fun _ =>
        .bind (writes_commitInternal O _ _ _) fun _ => .pure _
    · exact .pure _

include O in
theorem writes_rotateLeftInternal (parentId nodeId : Nat) (pChildren : List Nat) (pKeys : List κ)
    (idx : Nat) (children : List Nat) (keys : List κ) :
    Writes (NodeFits K) (rotateLeftInternal K parentId nodeId pChildren pKeys idx children keys :
      PageM ε τ Bool) := by
  unfold rotateLeftInternal
  split
  · exact .pure _
  · refine .bind (.lift _) fun _ => .bind (.fetchPage _) fun _ => .bind (.lift _) fun _ => ?_
    dsimp only
    split
    · exact .bind (.lift _) fun _ => .bind (.lift _) fun _ => .bind (.lift _) fun _ =>
        .bind (writes_writeInternal O _ _ _) fun _ => .bind (.fetchPage _) fun _ =>
        .bind (writes_writeInternal O _ _ _) fun _ =>
        .bind (writes_commitInternal O _ _ _) fun _ => .pure _
    · exact .pure _

include O in
theorem writes_mergeInternals (parentId leftId : Nat) (pChildren : List Nat) (pKeys : List κ)
    (idx : Nat) (lChildren : List Nat) (lKeys : List κ) (rChildren : List Nat) (rKeys : List κ) :
    Writes (NodeFits K) (mergeInternals K parentId leftId pChildren pKeys idx lChildren lKeys
      rChildren rKeys : PageM ε τ Unit) :=
  .bind (.lift _) fun _ => .bind (.fetchPage _) fun _ =>
    .bind (writes_writeInternal O _ _ _) fun _ => writes_commitInternal O _ _ _

include O in
theorem writes_fixupInternal (parentId : Nat) (pChildren : List Nat) (pKeys : List κ) (idx : Nat) :
    Writes (NodeFits K) (fixupInternal K parentId pChildren pKeys idx : PageM ε τ Unit) := by
  unfold fixupInternal
  refine .bind (.lift _) fun _ => .bind (.fetchPage _) fun _ => .bind (.lift _) fun _ =>
    .bind (writes_rotateRightInternal O _ _ _ _ _ _ _) fun _ => ?_
  split
  · exact .pure _
  refine .bind (writes_rotateLeftInternal O _ _ _ _ _ _ _) fun _ => ?_
  split
  · exact .pure _
  split
  · exact .bind (.fetchPage _) fun _ => .bind (.lift _) fun _ =>
      writes_mergeInternals O _ _ _ _ _ _ _ _ _
  · split
    · exact .throw _
    · exact .bind (.lift _) fun _ => .bind (.fetchPage _) fun _ => .bind (.lift _) fun _ =>
        writes_mergeInternals O _ _ _ _ _ _ _ _ _

theorem writes_maybeShrinkRoot (root : Nat) :
    Writes (NodeFits K) (maybeShrinkRoot K root : PageM ε τ Nat) := by
  unfold maybeShrinkRoot
  refine .bind (.fetchPage _) fun _ => ?_
  split
  · refine .bind (.lift _) fun _ => ?_
    dsimp only
    split
    · exact .lift _
    · exact .pure _
  · exact .pure _

include O in
theorem writes_fixupAfterDelete (root : Nat) (path : List Nat) :
    Writes (NodeFits K) (fixupAfterDelete K root path : PageM ε τ Nat) := by
  induction path with
  | nil => exact writes_maybeShrinkRoot root
  | cons nodeId path ih =>
    cases path with
    | nil => exact writes_maybeShrinkRoot root
    | cons parentId ancestors =>
      unfold fixupAfterDelete
      refine .bind (.fetchPage _) fun data => ?_
      dsimp only
      split
      · refine .bind (.map _ (.lift _)) fun count => ?_
        split
        · exact .pure _
        · exact .bind (.fetchPage _) fun _ => .bind (.lift _) fun _ => .bind (.lift _) fun _ =>
            .bind (writes_fixupLeaf O _ _ _ _) fun _ => ih
      · refine .bind (.map _ (.lift _)) fun count => ?_
        split
        · exact .pure _
        · exact .bind (.fetchPage _) fun _ => .bind (.lift _) fun _ => .bind (.lift _) fun _ =>
            .bind (writes_fixupInternal O _ _ _ _) fun _ => ih

include O in
theorem writes_delete (root : Nat) (key : κ) (rid : RID) :
    Writes (NodeFits K) (delete K root key rid : PageM ε τ (Bool × Nat)) := by
  unfold delete
  refine .bind (.bind .get fun _ => writes_findLeafPathFrom _ _ _ _) fun _ => .bind (.fetchPage _)
    fun _ => .bind (.lift _) fun _ => .bind (.lift _) fun _ => .bind (.lift _) fun _ => ?_
  split
  · exact .pure _
  · exact .bind (writes_writeLeaf O _ _ _) fun _ =>
      .bind (writes_fixupAfterDelete O _ _) fun _ => .pure _

end Writes

/-! ## Deletion over whole runs -/

section Runs
variable {s s' : PageFile Int τ} {root : Nat} {unique : Bool} {L : List (Int × RID)}

/-- A call that overflows no page. -/
def AvoidsOverflow (s : PageFile Int τ) (root : Nat) : Call → Prop
  | .insert .. => True
  | .delete key rid => ¬DeleteOverflows KeyOrder.int s root key rid

/-- In every state reached by insertions that return and deletions that overflow no
    page, a deletion returns and writes only nodes that fit exactly when it overflows
    no page either. -/
theorem Run.delete_fits_iff (h : Run unique (fun _ => True) AvoidsOverflow root s L) (key : Int)
    (rid : RID) :
    (∃ found root' s', delete KeyType.int root key rid s = .ok (found, root') s' ∧
      ∀ p : Nat, s'[p]? ≠ s[p]? → ∃ page, s'[p]? = some page ∧ NodeFits KeyType.int page) ↔
    ¬DeleteOverflows KeyOrder.int s root key rid := by
  obtain ⟨height, level, ht, rfl⟩ := h.represents
  have hx : KeyOrder.int.Comparable key := trivial
  have hwrites : ∀ found root' s', delete KeyType.int root key rid s = .ok (found, root') s' →
      ∀ p : Nat, s'[p]? ≠ s[p]? → ∃ page, s'[p]? = some page ∧ NodeFits KeyType.int page :=
    fun _ _ _ hrun => writes_delete KeyOrder.int root key rid s _ _ hrun
  by_cases hhit : ∃ a ∈ entries s level, hits KeyOrder.int key rid a
  · obtain ⟨hfail, hok⟩ := ht.delete_present hx hhit
    constructor
    · rintro ⟨found, root', s', hrun, -⟩ hover
      obtain ⟨s₁, hrun₁⟩ := hfail hover
      rw [hrun] at hrun₁
      cases hrun₁
    · intro hno
      obtain ⟨root', s', hrun, -⟩ := hok hno
      exact ⟨true, root', s', hrun, hwrites _ _ _ hrun⟩
  · obtain ⟨hno, hrun⟩ := ht.delete_absent hx hhit
    exact ⟨fun _ => hno, fun _ => ⟨false, root, s, hrun, hwrites _ _ _ hrun⟩⟩

theorem Run.delete_fits_iff_singleton :
    Run false (fun _ => True) AvoidsOverflow 0
        ([.leaf [(5, ⟨0, 0⟩)] invalidPageId] : PageFile Int Unit) [(5, ⟨0, 0⟩)] ∧
      ∃ found root' s', delete KeyType.int 0 5 ⟨0, 0⟩
        ([.leaf [(5, ⟨0, 0⟩)] invalidPageId] : PageFile Int Unit) = .ok (found, root') s' := by
  have h : Run false (fun _ => True) AvoidsOverflow 0
      ([.leaf [(5, ⟨0, 0⟩)] invalidPageId] : PageFile Int Unit) [(5, ⟨0, 0⟩)] :=
    .call (.insert 5 ⟨0, 0⟩) (.create (s := []) trivial rfl) (by decide) trivial rfl
  obtain ⟨found, root', s', hrun, -⟩ :=
    (h.delete_fits_iff 5 ⟨0, 0⟩).mpr (not_deleteOverflows_root rfl)
  exact ⟨h, found, root', s', hrun⟩

/-! ### A deletion that overflows a page -/

/-- Insert pairs one after the other. -/
def insertAll (root : Nat) (pairs : List (Int × RID)) : PageM Int τ Nat :=
  pairs.foldlM (fun root a => BPlusTree.insert KeyType.int false root a.1 a.2) root

/-- Pairs in order go to the end of a leaf that is the whole tree, while it has room. -/
theorem insertAll_leaf {es pairs : List (Int × RID)} {nx : Nat} (hpage : s[root]? = some (.leaf es nx))
    (hfits : LeafFits KeyOrder.int (es ++ pairs) nx)
    (hlen : (es ++ pairs).length ≤ maxLeafKeys KeyType.int)
    (hsorted : (es ++ pairs).Pairwise fun a b => a.1 ≤ b.1) :
    insertAll root pairs s = .ok root (s.set root (.leaf (es ++ pairs) nx)) := by
  induction pairs generalizing s es with
  | nil =>
    obtain ⟨hlt, hget⟩ := List.getElem?_eq_some_iff.mp hpage
    rw [List.append_nil, ← hget, List.set_getElem_self]
    rfl
  | cons a pairs ih =>
    obtain ⟨key, rid⟩ := a
    have heq : es ++ (key, rid) :: pairs = (es ++ [(key, rid)]) ++ pairs := by simp
    rw [heq] at hfits hlen hsorted ⊢
    have hins := insert_leaf_append hpage
      (hfits.of_subset (List.subset_append_left _ _) hfits.next)
      (by rw [List.length_append] at hlen; omega)
      fun b hb =>
        (List.pairwise_append.mp (List.pairwise_append.mp hsorted).1).2.2 b hb (key, rid) (by simp)
    have hself : (s.set root (.leaf (es ++ [(key, rid)]) nx))[root]? =
        some (.leaf (es ++ [(key, rid)]) nx) :=
      List.getElem?_set_self (List.getElem?_eq_some_iff.mp hpage).1
    rw [insertAll, List.foldlM_cons, run_bind_ok hins]
    exact (ih hself hfits hlen hsorted).trans (by rw [List.set_set])

/-- 146 different keys, 148 pairs of one key above them, and one pair above those. -/
def overflowPairs : List (Int × RID) :=
  ((List.range 146).map fun (i : Nat) => ((i : Int) + 1, ⟨0, 0⟩)) ++ List.replicate 148 (1000, ⟨0, 0⟩) ++
    [(1001, ⟨0, 0⟩)]

theorem overflowPairs_sorted : overflowPairs.Pairwise fun a b => a.1 ≤ b.1 := by
  have hrange : (List.range 146).Pairwise fun (a b : Nat) => (a : Int) + 1 ≤ b + 1 :=
    List.pairwise_lt_range.imp fun h => by omega
  simp only [overflowPairs, List.pairwise_append, List.pairwise_map, List.pairwise_replicate,
    List.mem_append, List.mem_map, List.mem_range, List.mem_replicate, List.mem_singleton]
  refine ⟨⟨hrange, by simp, ?_⟩, by simp, ?_⟩
  · rintro _ ⟨i, hi, rfl⟩ _ ⟨-, rfl⟩
    dsimp only
    omega
  · rintro _ (⟨i, hi, rfl⟩ | ⟨-, rfl⟩) _ rfl
    · dsimp only
      omega
    · decide

theorem overflowPairs_fits : LeafFits KeyOrder.int overflowPairs invalidPageId := by
  refine ⟨?_, ?_, by decide⟩
  · simp only [overflowPairs, List.mem_append, List.mem_map, List.mem_range, List.mem_replicate,
      List.mem_singleton, KeyOrder.int]
    rintro _ ((⟨i, hi, rfl⟩ | ⟨-, rfl⟩) | rfl)
    · dsimp only
      omega
    · decide
    · decide
  · simp only [overflowPairs, List.mem_append, List.mem_map, List.mem_range, List.mem_replicate,
      List.mem_singleton]
    rintro _ ((⟨i, hi, rfl⟩ | ⟨-, rfl⟩) | rfl) <;> rfl

/-- The last three insertions split the leaf and fill its right half; then the
    deletion of the first key overflows. -/
theorem delete_fails : ∃ root s s',
    (create KeyType.int >>= fun root => insertAll root overflowPairs) ([] : PageFile Int Unit) =
      .ok root s ∧
    delete KeyType.int root 1 ⟨0, 0⟩ s = .error .structError s' := by
  have hfirst : insertAll 0 (overflowPairs.take 292)
      ([.leaf [] invalidPageId] : PageFile Int Unit) =
        .ok 0 [.leaf (overflowPairs.take 292) invalidPageId] := by
    have hfits : LeafFits KeyOrder.int ([] ++ overflowPairs.take 292) invalidPageId :=
      overflowPairs_fits.of_subset (List.take_subset _ _) overflowPairs_fits.next
    exact insertAll_leaf rfl hfits ((List.length_take_le _ _).trans (by decide))
      (overflowPairs_sorted.sublist (List.take_sublist _ _))
  have hrest : (match insertAll 0 (overflowPairs.drop 292)
      ([.leaf (overflowPairs.take 292) invalidPageId] : PageFile Int Unit) with
      | .ok root s => (match delete KeyType.int root 1 ⟨0, 0⟩ s with
        | .error .structError _ => true
        | _ => false)
      | _ => false) = true := by
    decide +kernel
  have hsplit : insertAll 0 overflowPairs ([.leaf [] invalidPageId] : PageFile Int Unit) =
      insertAll 0 (overflowPairs.drop 292) [.leaf (overflowPairs.take 292) invalidPageId] := by
    conv_lhs => rw [← List.take_append_drop 292 overflowPairs, insertAll, List.foldlM_append]
    exact run_bind_ok hfirst
  have hcreate : create KeyType.int ([] : PageFile Int Unit) = .ok 0 [.leaf [] invalidPageId] := rfl
  rw [run_bind_ok hcreate, hsplit]
  split at hrest
  · rename_i root s hrun
    split at hrest
    · rename_i s' hfail
      exact ⟨root, s, s', hrun, hfail⟩
    · cases hrest
  · cases hrest

end Runs

end Minirel.BPlusTree

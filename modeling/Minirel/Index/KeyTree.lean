-- SUMMARY: The tree of an index by what it holds: searches and insertions of Python values.
import Minirel.Index.Coerce
import Minirel.Index.Progress
import Minirel.Index.Keys

/-!
# Trees by their entries

The tree of an index as a list of stored keys with RIDs. The keys it is given are the
raw values of the statements. One that the stored keys can be compared with goes where
its stored form goes; one that they cannot be compared with, such as a text on its way
to integers, is taken by an empty tree only.
-/

namespace Minirel

section
variable {κ ε R : Type} [LinearOrder R] {K : KeyType κ ε}

/-- A key that is stored as `k` but can be compared with no stored key. -/
structure KeyOrder.Foreign (O : KeyOrder K R) (x : κ) (k : ε) : Prop where
  stored : O.Stored k
  encode_eq : K.encodeKey x = .ok k
  raises : ∃ e, ∀ k', O.Stored k' → K.lt (O.val k') x = .error e ∧ K.lt x (O.val k') = .error e

/-- A key that is stored as `k`, if it is let in at all. -/
def KeyOrder.Enters (O : KeyOrder K R) (x : κ) (k : ε) : Prop := O.StoredAs x k ∨ O.Foreign x k

/-- Stored keys of one rank are the same. -/
def KeyOrder.Exact (O : KeyOrder K R) : Prop :=
  ∀ ⦃k k'⦄, O.Stored k → O.Stored k' → O.rk k = O.rk k' → k = k'

theorem KeyOrder.Enters.stored {O : KeyOrder K R} {x : κ} {k : ε} (h : O.Enters x k) : O.Stored k :=
  h.elim (·.stored) (·.stored)

theorem KeyOrder.Enters.encode_eq {O : KeyOrder K R} {x : κ} {k : ε} (h : O.Enters x k) :
    K.encodeKey x = .ok k := h.elim (·.encode_eq) (·.encode_eq)

end

namespace BPlusTree

open Row

variable {κ ε τ R : Type} [LinearOrder R] {K : KeyType κ ε} {O : KeyOrder K R}
  {own own' : Nat → Prop} {s s' : PageFile ε τ} {root : Nat} {es : List (ε × RID)} {x : κ} {k : ε}
  {rid : RID}

/-- A tree on pages of its own, by its entries. -/
def KeyTree (O : KeyOrder K R) (own : Nat → Prop) (s : PageFile ε τ) (root : Nat)
    (es : List (ε × RID)) : Prop :=
  ∃ height level, Tree O s height root level ∧ entries s level = es ∧ ∀ x j, height x = some j → own x

/-- The RIDs under a key. -/
def ridsUnder [DecidableEq ε] (es : List (ε × RID)) (k : ε) : List RID := (es.filter fun e => e.1 = k).map (·.2)

theorem mem_ridsUnder [DecidableEq ε] : rid ∈ ridsUnder es k ↔ (k, rid) ∈ es := by
  simp [ridsUnder]

theorem length_ridsUnder_perm [DecidableEq ε] {es' : List (ε × RID)} (h : es.Perm es') (k : ε) :
    (ridsUnder es k).length = (ridsUnder es' k).length := ((h.filter _).map _).length_eq

theorem KeyTree.congr (h : KeyTree O own s root es) (hsame : ∀ p, own p → s'[p]? = s[p]?)
    (hlen : s.length ≤ s'.length) : KeyTree O own s' root es := by
  obtain ⟨height, level, htree, hes, hown⟩ := h
  obtain ⟨htree', hes'⟩ := htree.congr (fun x j hx => hsame x (hown x j hx)) hlen
  exact ⟨height, level, htree', hes'.trans hes, hown⟩

theorem KeyTree.create (O : KeyOrder K R) (s : PageFile ε τ) :
    KeyTree O (fun p => p = s.length) (s ++ [.leaf [] invalidPageId]) s.length [] := by
  obtain ⟨htree, hes⟩ := tree_create O s
  refine ⟨_, _, htree, hes, fun x j hx => ?_⟩
  by_contra hne
  rw [Function.update_of_ne hne] at hx
  cases hx

theorem KeyTree.stored (h : KeyTree O own s root es) : ∀ e ∈ es, O.Stored e.1 := by
  obtain ⟨height, level, htree, rfl, -⟩ := h
  exact htree.stored

/-! ## Reading -/

theorem KeyTree.search_eq [DecidableEq ε] (h : KeyTree O own s root es) (hO : O.Exact)
    (hx : O.StoredAs x k) : search K root x s = .ok (ridsUnder es k) s := by
  have hstored := h.stored
  obtain ⟨height, level, htree, rfl, -⟩ := h
  rw [htree.search_eq hx.comparable, ridsUnder]
  congr 2
  refine List.filter_congr fun e he => decide_eq_decide.mpr ?_
  rw [hx.rank_eq]
  exact ⟨fun hrk => hO (hstored e he) hx.stored hrk, fun heq => by rw [heq]⟩

/-- A foreign key is found in no tree and raises in every tree that is not empty. -/
theorem KeyTree.search_foreign (h : KeyTree O own s root es) (hx : O.Foreign x k) :
    (es = [] ∧ search K root x s = .ok [] s) ∨ (es ≠ [] ∧ ∃ e, search K root x s = .error e s) := by
  obtain ⟨height, level, htree, rfl, -⟩ := h
  obtain ⟨e, hraises⟩ := hx.raises
  exact (htree.search_raises hraises).imp id fun ⟨hne, hrun⟩ => ⟨hne, e, hrun⟩

/-- A search that returns has found the RIDs under the key. -/
theorem KeyTree.search_enters [DecidableEq ε] {rids : List RID} (h : KeyTree O own s root es) (hO : O.Exact)
    (hx : O.Enters x k) (hrun : search K root x s = .ok rids s') : rids = ridsUnder es k := by
  obtain hx | hx := hx
  · rw [h.search_eq hO hx] at hrun
    cases hrun
    rfl
  · obtain ⟨rfl, hfound⟩ | ⟨-, e, hfound⟩ := h.search_foreign hx
    · rw [hfound] at hrun
      cases hrun
      rfl
    · rw [hfound] at hrun
      cases hrun

/-- A range scan yields the entries in range, in order. -/
theorem KeyTree.rangeScan_within {start stop : Option κ} (h : KeyTree O own s root es)
    (hown : ∀ p, own p → p ≠ invalidPageId) (hstart : ∀ k ∈ start, O.Comparable k)
    (hstop : ∀ k ∈ stop, O.Comparable k) :
    rangeScan K root start stop s = .ok ((es.filter (within O start stop)).map O.dec) s := by
  obtain ⟨height, level, htree, rfl, hpages⟩ := h
  have hne : invalidPageId ∉ nodes level := fun hmem =>
    hown _ (hpages _ _ (htree.tower.toLevel.height_eq _ hmem)) rfl
  exact htree.rangeScan_eq hne hstart hstop

/-- Draining the tree yields its entries in order. -/
theorem KeyTree.rangeScan_eq (h : KeyTree O own s root es) (hown : ∀ p, own p → p ≠ invalidPageId) :
    rangeScan K root none none s = .ok (es.map O.dec) s := by
  rw [h.rangeScan_within hown (by simp) (by simp)]
  congr 2
  exact List.filter_eq_self.mpr fun _ _ => rfl

/-! ## Insertion -/

/-- What an insertion that returns leaves behind. -/
structure Took (O : KeyOrder K R) (own : Nat → Prop) (s : PageFile ε τ) (es : List (ε × RID))
    (k : ε) (rid : RID) (root' : Nat) (s' : PageFile ε τ) : Prop where
  stays : Stays own s s'
  tree : ∃ es', es'.Perm ((k, rid) :: es) ∧ KeyTree O (claimed own s s') s' root' es'

theorem KeyTree.of_inserted {root' : Nat} (h : KeyTree O own s root es) (hk : O.Stored k)
    (hrun : insert K false root (O.val k) rid s = .ok root' s') : Took O own s es k rid root' s' := by
  obtain ⟨height, level, htree, rfl, hown⟩ := h
  obtain ⟨l, r, hlr, -, -, height', level', hg, -, htree', hes'⟩ := htree.insert_spec hk hrun
  refine ⟨⟨hg.length_le, fun p hp hnot => hg.pages p hp fun j hj _ => hnot (hown p j hj)⟩,
    l ++ (k, rid) :: r, ?_, height', level', htree', hes', fun x j hx => ?_⟩
  · rw [hlr]
    exact List.perm_middle
  · obtain hx | ⟨hle, hlt, -⟩ := hg.height_cases x j hx
    · exact .inl (hown x j hx)
    · exact .inr ⟨hle, hlt⟩

/-- A key is taken as long as it has fewer entries than a leaf holds, and refused without
    a trace otherwise. -/
theorem KeyTree.insert_storedAs [DecidableEq ε] (h : KeyTree O own s root es) (hO : O.Exact)
    (hx : O.StoredAs x k) (hrid : ridFits rid)
    (hroom : ((insert K false root x rid).after s).length ≤ 2 ^ 32) :
    ((ridsUnder es k).length < maxLeafKeys K ∧
      ∃ root' s', insert K false root x rid s = .ok root' s' ∧ Took O own s es k rid root' s') ∨
    ((ridsUnder es k).length = maxLeafKeys K ∧
      insert K false root x rid s = .error (splitError K) s) := by
  have hstored := h.stored
  have htree := h
  obtain ⟨height, level, htree, rfl, -⟩ := htree
  have hsame : insert K false root x rid s = _ := htree.insert_storedAs hx
  rw [PageM.after_congr hsame] at hroom
  have hcount : occurrences O s level k = (ridsUnder (entries s level) k).length := by
    rw [occurrences, ridsUnder, List.length_map, ← List.countP_eq_length_filter]
    refine List.countP_congr fun e he => ?_
    simp only [decide_eq_true_eq]
    exact ⟨fun hrk => hO (hstored e he) hx.stored hrk, fun heq => by rw [heq]⟩
  rw [hsame, ← hcount]
  obtain ⟨hlt, root', s', hrun⟩ | hfull := htree.insert_total hx.stored hrid hroom
  · exact .inl ⟨hlt, root', s', hrun, h.of_inserted hx.stored hrun⟩
  · exact .inr hfull

/-- A foreign key is taken by an empty tree only. -/
theorem KeyTree.insert_foreign (h : KeyTree O own s root es) (hx : O.Foreign x k)
    (hrid : ridFits rid) :
    (es = [] ∧ ∃ s', insert K false root x rid s = .ok root s' ∧ Took O own s es k rid root s') ∨
    (es ≠ [] ∧ ∃ e, insert K false root x rid s = .error e s) := by
  obtain ⟨height, level, htree, rfl, hown⟩ := h
  obtain ⟨e, hraises⟩ := hx.raises
  obtain ⟨hempty, hpage, hrun⟩ | ⟨hne, hrun⟩ := htree.insert_raises hraises
  · have hleaf : LeafFits O [(k, rid)] invalidPageId :=
      ⟨by simpa using hx.stored, by simpa using hrid, by decide⟩
    have hlen : 1 ≤ maxLeafKeys K := (by decide : 1 ≤ 4).trans (le_max_left _ _)
    have hcongr : [(x, rid)].map (fun y => (K.encodeKey y.1, y.2)) =
        [(O.val k, rid)].map fun y => (K.encodeKey y.1, y.2) := by
      simp only [List.map_cons, List.map_nil, hx.encode_eq, O.encode_val hx.stored]
    have hwrite : writeLeaf K root [(x, rid)] invalidPageId s =
        .ok () (s.set root (.leaf [(k, rid)] invalidPageId)) := by
      rw [writeLeaf_congr hcongr]
      exact writeLeaf_eq hleaf (by simpa using hlen) rfl s
    have hroot : root < s.length := (List.getElem?_eq_some_iff.mp hpage).1
    obtain ⟨htree', hes'⟩ := tree_leaf (O := O) (K := K) (List.getElem?_set_self hroot) hleaf
      (by simpa using hlen) (by simp)
    obtain ⟨j, hj⟩ := htree.height_root
    have hrootOwn : own root := hown root j hj
    rw [hempty]
    refine .inl ⟨rfl, _, ?_, ⟨by simp, fun p hp hnot => ?_⟩, [(k, rid)], .refl _, _, _, htree', hes', ?_⟩
    · rw [hrun, insertInLeaf, if_pos (by simpa using hlen), run_bind_ok hwrite]
      rfl
    · refine List.getElem?_set_ne ?_
      rintro rfl
      exact hnot hrootOwn
    · intro y j hy
      by_cases hyr : y = root
      · exact .inl (hyr ▸ hrootOwn)
      · rw [Function.update_of_ne hyr] at hy
        cases hy
  · exact .inr ⟨hne, e, hrun⟩

/-- An insertion takes the key, or refuses it without a trace. -/
theorem KeyTree.insert_enters [DecidableEq ε] (h : KeyTree O own s root es) (hO : O.Exact)
    (hx : O.Enters x k) (hrid : ridFits rid)
    (hroom : ((insert K false root x rid).after s).length ≤ 2 ^ 32) :
    (∃ root' s', insert K false root x rid s = .ok root' s' ∧ Took O own s es k rid root' s') ∨
    ∃ e, insert K false root x rid s = .error e s := by
  obtain hx | hx := hx
  · obtain ⟨-, hok⟩ | ⟨-, hrun⟩ := h.insert_storedAs hO hx hrid hroom
    · exact .inl hok
    · exact .inr ⟨_, hrun⟩
  · obtain ⟨-, s', hrun, htook⟩ | ⟨-, hrun⟩ := h.insert_foreign hx hrid
    · exact .inl ⟨root, s', hrun, htook⟩
    · exact .inr hrun

/-- A key that a search finds less often than a leaf holds entries is taken. -/
theorem KeyTree.insert_of_search [DecidableEq ε] {rids : List RID} (h : KeyTree O own s root es) (hO : O.Exact)
    (hx : O.Enters x k) (hrid : ridFits rid)
    (hroom : ((insert K false root x rid).after s).length ≤ 2 ^ 32)
    (hsearch : search K root x s = .ok rids s) (hfew : rids.length < maxLeafKeys K) :
    ∃ root' s', insert K false root x rid s = .ok root' s' := by
  obtain rfl := h.search_enters hO hx hsearch
  obtain hx | hx := hx
  · obtain ⟨-, root', s', hrun, -⟩ | ⟨hfull, -⟩ := h.insert_storedAs hO hx hrid hroom
    · exact ⟨root', s', hrun⟩
    · omega
  · obtain ⟨-, s', hrun, -⟩ | ⟨hne, -⟩ := h.insert_foreign hx hrid
    · exact ⟨root, s', hrun⟩
    · obtain ⟨hnil, -⟩ | ⟨-, e, herr⟩ := h.search_foreign hx
      · exact absurd hnil hne
      · rw [herr] at hsearch
        cases hsearch

end BPlusTree
end Minirel

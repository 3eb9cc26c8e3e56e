-- SUMMARY: The descent from the root to a leaf, and what search and range scan read off a tree.
import Minirel.Index.Tree

/-!
# Search
-/

namespace Minirel.BPlusTree

open Row

variable {κ ε τ R : Type} [LinearOrder R] {K : KeyType κ ε} {O : KeyOrder K R}
  {s s' : PageFile ε τ} {height height' : Nat → Option Nat} {root h p : Nat} {path : List Nat}
  {before after level : List (Item Nat ε)}

/-! ## Descending -/

/-- Each child of a node in focus can be brought into focus. -/
theorem Focus.child {q : Nat} {ls : List (Nat × ε)} {rs : List (ε × Nat)}
    (hup : Focus O s height root (h + 1) path before q after)
    (hnodes : ∀ x ∈ nodes (before ++ .node q :: after), IsInternal O s (minKeysOf K root x) x)
    (hlevel : Level s height h (expand (rowAt s) (before ++ .node q :: after)))
    (hpage : s[q]? = some (.internal (zipFirst ls p) (zipRest ls p rs))) :
    expand (rowAt s) (before ++ .node q :: after) =
        (expand (rowAt s) before ++ left ls) ++ .node p :: (right rs ++ expand (rowAt s) after) ∧
      Focus O s height root h (q :: path) (expand (rowAt s) before ++ left ls) p
        (right rs ++ expand (rowAt s) after) := by
  have heq : expand (rowAt s) (before ++ .node q :: after) =
      (expand (rowAt s) before ++ left ls) ++ .node p :: (right rs ++ expand (rowAt s) after) := by
    simp [rowAt_internal hpage, row_zip]
  refine ⟨heq, ?_⟩
  obtain ⟨child, rest, hpage', hfits, hlo, hhi⟩ := hnodes q (by simp)
  obtain ⟨rfl, rfl⟩ : child = zipFirst ls p ∧ rest = zipRest ls p rs := by
    simpa [hpage] using hpage'.symm
  rw [length_zipRest] at hlo hhi
  rw [heq] at hlevel
  refine .down hup (fun x hx => ?_) hpage hfits hlo hhi hlevel
  have hx' := hnodes x (mem_nodes_focus.mpr (.inr hx))
  rwa [minKeysOf, if_neg (hup.ne_root hx)] at hx'

theorem Focus.mem_path (hf : Focus O s height root h path before p after) :
    ∀ x ∈ path, x < s.length ∧ ∃ j, height x = some j ∧ h < j := by
  induction hf with
  | root => simp
  | @down h q p path before after ls rs hup hnodes hpage hfits hlo hhi hlevel ih =>
    rw [List.forall_mem_cons]
    refine ⟨⟨hup.toLevel.lt_length q (by simp), h + 1, hup.toLevel.height_eq q (by simp),
      Nat.lt_succ_self h⟩, fun x hx => ?_⟩
    obtain ⟨hlt, j, hj, hlt'⟩ := ih x hx
    exact ⟨hlt, j, hj, by omega⟩

/-- A path has fewer nodes than the file has pages, so a descent ends. -/
theorem Focus.length_path_le (hf : Focus O s height root h path before p after) :
    path.length ≤ s.length := by
  have hnodup : path.Nodup := by
    induction hf with
    | root => simp
    | @down h q p path before after ls rs hup hnodes hpage hfits hlo hhi hlevel ih =>
      refine List.nodup_cons.mpr ⟨fun hq => ?_, ih⟩
      obtain ⟨-, j, hj, hlt⟩ := hup.mem_path q hq
      rw [hup.toLevel.height_eq q (by simp), Option.some.injEq] at hj
      omega
  have hsub : path ⊆ List.range s.length := fun x hx =>
    List.mem_range.mpr (hf.mem_path x hx).1
  simpa using (hnodup.subperm hsub).length_le

/-- The separators before a node are at most the last of them. -/
theorem seps_expand_le {f : Nat → List (Item Nat ε)} {r : R} (hb : EndsSep before)
    (hle : ∀ k ∈ seps before, O.rk k ≤ r)
    (hsorted : (seps (expand f before)).Pairwise fun a b => O.rk a ≤ O.rk b) :
    ∀ k ∈ seps (expand f before), O.rk k ≤ r := by
  obtain rfl | ⟨before, last, rfl⟩ := hb
  · simp
  · have hlast := hle last (by simp)
    simp only [expand_append, expand_sep, expand_nil, seps_append, seps_sep, seps_nil] at hsorted ⊢
    intro k hk
    obtain hk | hk := List.mem_append.mp hk
    · exact ((List.pairwise_append.mp hsorted).2.2 k hk last (by simp)).trans hlast
    · rwa [List.mem_singleton.mp hk]

/-- The separators after a node are at least the first of them. -/
theorem lt_seps_expand {f : Nat → List (Item Nat ε)} {r : R} (ha : StartsSep after)
    (hgt : ∀ k ∈ seps after, r < O.rk k)
    (hsorted : (seps (expand f after)).Pairwise fun a b => O.rk a ≤ O.rk b) :
    ∀ k ∈ seps (expand f after), r < O.rk k := by
  obtain rfl | ⟨first, after, rfl⟩ := ha
  · simp
  · have hfirst := hgt first (by simp)
    simp only [expand_sep, seps_sep, List.pairwise_cons] at hsorted ⊢
    intro k hk
    obtain rfl | hk := List.mem_cons.mp hk
    · exact hfirst
    · exact hfirst.trans_le (hsorted.1 k hk)

/-- Descending for a key of rank `r` ends at a node that has every separator up to
    that rank before it and every larger one after it. -/
theorem Tower.descend (r : R) (ht : Tower O s height root h level)
    (hsorted : (seps level).Pairwise fun a b => O.rk a ≤ O.rk b) :
    ∃ path p before after, level = before ++ .node p :: after ∧
      Focus O s height root h path before p after ∧ EndsSep before ∧ StartsSep after ∧
      (∀ k ∈ seps before, O.rk k ≤ r) ∧ (∀ k ∈ seps after, r < O.rk k) ∧
      ∀ x, O.Comparable x → O.rank x = r → ∀ fuel,
        findLeafPathFrom K x (fuel + path.length) root [root] s =
          findLeafPathFrom K x fuel p (p :: path).reverse s := by
  induction ht with
  | root hlevel =>
    exact ⟨[], root, [], [], rfl, .root hlevel, endsSep_nil, startsSep_nil, by simp, by simp,
      fun _ _ _ fuel => rfl⟩
  | @down h level hup hnodes hlevel ih =>
    obtain ⟨path, q, before, after, rfl, hf, hbefore, hafter, hle, hgt, hrun⟩ :=
      ih (hsorted.sublist (seps_sublist_expand level))
    obtain ⟨child, rest, hpage, hfits, -⟩ := hnodes q (by simp)
    have hkeys : (rest.map (·.1)).Pairwise fun a b => O.rk a ≤ O.rk b := by
      refine hsorted.sublist ?_
      simp [rowAt_internal hpage, row]
    obtain ⟨l₁, l₂, hcut, hl₁, hl₂⟩ := exists_cut_le hkeys r
    obtain ⟨ls, p, rs, hlen, rfl, rfl⟩ : ∃ ls b rs, ls.length = l₁.length ∧
        child = zipFirst ls b ∧ rest = zipRest ls b rs := by
      refine exists_zip child rest ?_
      have := congrArg List.length hcut
      simp only [List.length_map, List.length_append] at this
      omega
    rw [map_fst_zipRest] at hcut
    obtain ⟨rfl, rfl⟩ := List.append_inj hcut (by simpa using hlen)
    obtain ⟨heq, hf'⟩ := hf.child hnodes hlevel hpage
    refine ⟨q :: path, p, _, _, heq, hf', hbefore.expand.append (endsSep_left ls),
      (startsSep_right rs).append hafter.expand, ?_, ?_, fun x hx hr fuel => ?_⟩
    · rw [seps_append, seps_left, List.forall_mem_append]
      refine ⟨seps_expand_le hbefore hle (hsorted.sublist ?_), hl₁⟩
      simp
    · rw [seps_append, seps_right, List.forall_mem_append]
      refine ⟨hl₂, lt_seps_expand hafter hgt (hsorted.sublist ?_)⟩
      simp only [expand_append, expand_node, seps_append]
      exact (List.sublist_append_right _ _).trans (List.sublist_append_right _ _)
    · subst hr
      rw [List.length_cons, ← Nat.add_assoc, Nat.add_right_comm, hrun x hx rfl (fuel + 1)]
      have hbis := bisectRight_eq (O := O) (l := ls.map (·.2)) (r := rs.map (·.1)) hx
        (by simpa [← map_fst_zipRest ls p rs] using hfits.stored) hl₁ hl₂
      simp only [List.map_append, List.map_map, Function.comp_def, List.length_map] at hbis
      have hget := pyGet_append (ls.map (·.1)) (rs.map (·.2)) p
      rw [List.length_map] at hget
      conv_lhs => unfold findLeafPathFrom
      rw [run_bind_ok (fetchPage_eq hpage)]
      simp only [isLeaf, Bool.false_eq_true, reduceIte]
      rw [readInternal_zip hfits.stored, run_bind_ok (PageM.lift_ok _ _)]
      simp only [hbis]
      rw [run_bind_ok (PageM.lift_ok _ _), hget, run_bind_ok (PageM.lift_ok _ _)]
      simp

/-! ## Finding the leaf of a key -/

/-- The leaf a descent for `x` ends at, and where it stands. -/
structure Found (O : KeyOrder K R) (s : PageFile ε τ) (height : Nat → Option Nat) (root : Nat)
    (level : List (Item Nat ε)) (x : κ) (path : List Nat) (before : List (Item Nat ε)) (p : Nat)
    (after : List (Item Nat ε)) (es : List (ε × RID)) (nx : Nat) : Prop where
  level_eq : level = before ++ .node p :: after
  focus : Focus O s height root 0 path before p after
  page : s[p]? = some (.leaf es nx)
  fits : LeafFits O es nx
  length_le : es.length ≤ maxLeafKeys K
  ends : EndsSep before
  starts : StartsSep after
  seps_le : ∀ k ∈ seps before, O.rk k ≤ O.rank x
  lt_seps : ∀ k ∈ seps after, O.rank x < O.rk k
  entries_lt : ∀ a ∈ entries s before, O.rk a.1 < O.rank x
  lt_entries : ∀ a ∈ entries s after, O.rank x < O.rk a.1
  contents_eq : contents s level = contents s before ++ es.map .node ++ contents s after
  run : findLeafPath K root x s = .ok (p :: path).reverse s

/-- Keys of one rank are looked for in the same leaf. -/
theorem Tree.find_rank (r : R) (ht : Tree O s height root level) :
    ∃ path before p after es nx, ∀ x, O.Comparable x → O.rank x = r →
      Found O s height root level x path before p after es nx := by
  have hseps : (seps level).Pairwise fun a b => O.rk a ≤ O.rk b := by
    have := Sorted.seps ht.inOrder
    rwa [seps_contents] at this
  obtain ⟨path, p, before, after, rfl, hf, hends, hstarts, hle, hgt, hrun⟩ :=
    ht.tower.descend r hseps
  obtain ⟨es, nx, hpage, hfits, hlen, -⟩ := ht.leaf p (by simp)
  have hcontents : contents s (before ++ .node p :: after) =
      contents s before ++ es.map .node ++ contents s after := by
    simp [entriesAt_leaf hpage]
  have hord := ht.inOrder
  rw [hcontents] at hord
  refine ⟨path, before, p, after, es, nx, fun x hx hr => ?_⟩
  subst hr
  refine ⟨rfl, hf, hpage, hfits, hlen, hends, hstarts, hle, hgt, ?_, ?_, hcontents, ?_⟩
  · refine Sorted.nodes_lt (hord.sublist ?_) hends.expand (by simpa using hle)
    rw [List.append_assoc]
    exact List.sublist_append_left _ _
  · exact Sorted.lt_nodes (hord.sublist (List.sublist_append_right _ _)) hstarts.expand
      (by simpa using hgt)
  · have hlen := hf.length_path_le
    obtain ⟨fuel, hfuel⟩ : ∃ fuel, s.length + 1 = fuel + 1 + path.length :=
      ⟨s.length - path.length, by omega⟩
    change findLeafPathFrom K x (s.length + 1) root [root] s = _
    rw [hfuel, hrun x hx rfl]
    unfold findLeafPathFrom
    rw [run_bind_ok (fetchPage_eq hpage)]
    rfl

theorem Tree.find {x : κ} (ht : Tree O s height root level) (hx : O.Comparable x) :
    ∃ path before p after es nx, Found O s height root level x path before p after es nx := by
  obtain ⟨path, before, p, after, es, nx, hf⟩ := ht.find_rank (O.rank x)
  exact ⟨path, before, p, after, es, nx, hf x hx rfl⟩

theorem Found.findLeaf {x : κ} {es : List (ε × RID)} {nx : Nat}
    (hf : Found O s height root level x path before p after es nx) :
    findLeaf K root x s = .ok p s := by
  rw [BPlusTree.findLeaf, run_bind_ok hf.run]
  simp

theorem Found.readLeaf {x : κ} {es : List (ε × RID)} {nx : Nat}
    (hf : Found O s height root level x path before p after es nx) :
    readLeaf K (.leaf es nx : Page ε τ) = .ok (es.map O.dec, nx) :=
  readLeaf_eq hf.fits.stored

theorem Found.entries_eq {x : κ} {es : List (ε × RID)} {nx : Nat}
    (hf : Found O s height root level x path before p after es nx) :
    entries s level = entries s before ++ es ++ entries s after := by
  simp [entries, hf.contents_eq]

/-- The entries of the leaf, cut into those below, at and above the key. -/
theorem Found.cut {x : κ} {es : List (ε × RID)} {nx : Nat}
    (hf : Found O s height root level x path before p after es nx)
    (hord : InOrder O (contents s level)) (hx : O.Comparable x) :
    ∃ l m r, es = l ++ m ++ r ∧ (∀ a ∈ l, O.rk a.1 < O.rank x) ∧
      (∀ a ∈ m, O.rk a.1 = O.rank x) ∧ (∀ a ∈ r, O.rank x < O.rk a.1) ∧
      bisectLeft K ((es.map O.dec).map (·.1)) x = .ok l.length ∧
      bisectRight K ((es.map O.dec).map (·.1)) x = .ok (l ++ m).length := by
  have hsorted : es.Pairwise fun a b => O.rk a.1 ≤ O.rk b.1 := by
    have := Sorted.nodes hord
    rw [hf.contents_eq] at this
    simp only [nodes_append, nodes_map_node] at this
    exact (List.pairwise_append.mp (List.pairwise_append.mp this).1).2.1
  obtain ⟨l, es', rfl, hl, hes'⟩ := exists_cut_lt hsorted (O.rank x)
  obtain ⟨m, r, rfl, hm, hr⟩ := exists_cut_le (List.pairwise_append.mp hsorted).2.1 (O.rank x)
  have hst := hf.fits.stored
  have hmem : ∀ l : List (ε × RID), (∀ a ∈ l, O.Stored a.1) ↔ ∀ e ∈ l.map (·.1), O.Stored e := by
    simp
  refine ⟨l, m, r, (List.append_assoc ..).symm, hl,
    fun a ha => le_antisymm (hm a ha) (hes' a (List.mem_append_left _ ha)), hr, ?_, ?_⟩
  · have := bisectLeft_eq (O := O) (l := l.map (·.1)) (r := (m ++ r).map (·.1)) hx
      (by rw [← List.map_append]; exact (hmem _).mp hst) (List.forall_mem_map.mpr hl)
      (List.forall_mem_map.mpr hes')
    simpa [KeyOrder.dec, Function.comp_def] using this
  · have := bisectRight_eq (O := O) (l := (l ++ m).map (·.1)) (r := r.map (·.1)) hx
      (by rw [← List.map_append, List.append_assoc]; exact (hmem _).mp hst)
      (by
        intro e he
        obtain ⟨a, ha, rfl⟩ := List.mem_map.mp he
        obtain ha | ha := List.mem_append.mp ha
        · exact (hl a ha).le
        · exact hm a ha)
      (List.forall_mem_map.mpr hr)
    simpa [KeyOrder.dec, Function.comp_def] using this

/-! ## Search -/

/-- `search` returns the RIDs of the entries with the key's rank, in order. -/
theorem Tree.search_eq {x : κ} (ht : Tree O s height root level) (hx : O.Comparable x) :
    search K root x s =
      .ok (((entries s level).filter fun a => O.rk a.1 = O.rank x).map (·.2)) s := by
  obtain ⟨path, before, p, after, es, nx, hf⟩ := ht.find hx
  obtain ⟨l, m, r, rfl, hl, hm, hr, hlo, hhi⟩ := hf.cut ht.inOrder hx
  have hfilter : (entries s level).filter (fun a => O.rk a.1 = O.rank x) = m := by
    have hnone : ∀ l' : List (ε × RID), (∀ a ∈ l', O.rk a.1 ≠ O.rank x) →
        l'.filter (fun a => O.rk a.1 = O.rank x) = [] := fun l' h =>
      List.filter_eq_nil_iff.mpr (by simpa using h)
    rw [hf.entries_eq]
    simp only [List.filter_append, hnone _ fun a ha => (hf.entries_lt a ha).ne,
      hnone _ fun a ha => (hf.lt_entries a ha).ne', hnone _ fun a ha => (hl a ha).ne,
      hnone _ fun a ha => (hr a ha).ne', List.nil_append, List.append_nil]
    exact List.filter_eq_self.mpr (by simpa using hm)
  rw [search, run_bind_ok hf.findLeaf, run_bind_ok (fetchPage_eq hf.page), hf.readLeaf,
    run_bind_ok (PageM.lift_ok _ _)]
  simp only [hlo, hhi]
  rw [run_bind_ok (PageM.lift_ok _ _), run_bind_ok (PageM.lift_ok _ _), hfilter]
  simp [KeyOrder.dec, List.take_append]

/-! ## Range scan -/

/-- Whether an entry lies between two bounds, `none` being an open end. -/
def within (O : KeyOrder K R) (start stop : Option κ) (a : ε × RID) : Bool :=
  start.all (fun k => O.rank k ≤ O.rk a.1) && stop.all fun k => O.rk a.1 ≤ O.rank k

theorem scanLeaf_eq {stop : Option κ} {es : List (ε × RID)} (hst : ∀ a ∈ es, O.Stored a.1)
    (hstop : ∀ k ∈ stop, O.Comparable k) (hsorted : es.Pairwise fun a b => O.rk a.1 ≤ O.rk b.1) :
    ∃ stopped, scanLeaf K stop (es.map O.dec) =
        .ok ((es.filter (within O none stop)).map O.dec, stopped) ∧
      (stopped = true → ∃ k ∈ stop, ∃ a ∈ es, O.rank k < O.rk a.1) := by
  induction es with
  | nil => exact ⟨false, rfl, by simp⟩
  | cons a es ih =>
    rw [List.forall_mem_cons] at hst
    rw [List.pairwise_cons] at hsorted
    obtain ⟨stopped, hrun, hstopped⟩ := ih hst.2 hsorted.2
    cases stop with
    | none =>
      refine ⟨stopped, ?_, fun h => by simpa using hstopped h⟩
      simp only [scanLeaf, List.map_cons, hrun]
      rfl
    | some k =>
      have hlt := O.lt_eq (hstop k rfl) (O.comparable_val hst.1)
      by_cases hk : O.rank k < O.rk a.1
      · refine ⟨true, ?_, fun _ => ⟨k, rfl, a, by simp, hk⟩⟩
        have hnone : (a :: es).filter (within O none (some k)) = [] := by
          refine List.filter_eq_nil_iff.mpr fun b hb => ?_
          obtain rfl | hb := List.mem_cons.mp hb
          · simpa [within] using hk
          · simpa [within] using hk.trans_le (hsorted.1 b hb)
        have hk' : O.rank k < O.rank (O.val a.1) := hk
        simp only [List.map_cons, KeyOrder.dec, scanLeaf, hlt, hk', hnone]
        rfl
      · refine ⟨stopped, ?_, fun h => ?_⟩
        · have hin : within O none (some k) a := by simpa [within] using not_lt.mp hk
          have hk' : ¬ O.rank k < O.rank (O.val a.1) := hk
          rw [List.filter_cons_of_pos hin]
          simp only [List.map_cons, KeyOrder.dec, scanLeaf, hlt, hk', decide_false]
          simp only [bind, Except.bind, Bool.false_eq_true, reduceIte]
          rw [hrun]
          rfl
        · obtain ⟨k', hk', b, hb, hlt⟩ := hstopped h
          exact ⟨k', hk', b, List.mem_cons_of_mem _ hb, hlt⟩

/-- Where a scan from `start` begins in one leaf. -/
theorem scanStart_eq {start : Option κ} {es : List (ε × RID)} (hst : ∀ a ∈ es, O.Stored a.1)
    (hstart : ∀ k ∈ start, O.Comparable k)
    (hsorted : es.Pairwise fun a b => O.rk a.1 ≤ O.rk b.1) :
    ∃ l es', es = l ++ es' ∧ (∀ a ∈ l, ∃ k ∈ start, O.rk a.1 < O.rank k) ∧
      (∀ a ∈ es', ∀ k ∈ start, O.rank k ≤ O.rk a.1) ∧
      scanStart K start ((es.map O.dec).map (·.1)) = .ok l.length := by
  cases start with
  | none => exact ⟨[], es, rfl, by simp, by simp, rfl⟩
  | some k =>
    obtain ⟨l, es', rfl, hl, hes'⟩ := exists_cut_lt hsorted (O.rank k)
    refine ⟨l, es', rfl, fun a ha => ⟨k, rfl, hl a ha⟩, by simpa using hes', ?_⟩
    have hbis := bisectLeft_eq (O := O) (l := l.map (·.1)) (r := es'.map (·.1)) (hstart k rfl)
      (by rw [← List.map_append]; exact List.forall_mem_map.mpr hst)
      (List.forall_mem_map.mpr hl) (List.forall_mem_map.mpr hes')
    have hkeys : ((l ++ es').map O.dec).map (·.1) = (l.map (·.1) ++ es'.map (·.1)).map O.val := by
      simp [KeyOrder.dec, Function.comp_def]
    simp only [scanStart, hkeys, hbis, List.length_map]

theorem rangeScanFrom_eq {start stop : Option κ} (hstart : ∀ k ∈ start, O.Comparable k)
    (hstop : ∀ k ∈ stop, O.Comparable k) {ps : List Nat} {first fuel : Nat}
    (hchain : Chain s first ps invalidPageId) (hne : invalidPageId ∉ ps)
    (hst : ∀ a ∈ ps.flatMap (entriesAt s), O.Stored a.1)
    (hsorted : (ps.flatMap (entriesAt s)).Pairwise fun a b => O.rk a.1 ≤ O.rk b.1)
    (hfuel : ps.length < fuel) :
    rangeScanFrom K start stop fuel first s =
      .ok (((ps.flatMap (entriesAt s)).filter (within O start stop)).map O.dec) s := by
  induction ps generalizing first fuel with
  | nil =>
    obtain ⟨fuel, rfl⟩ : ∃ n, fuel = n + 1 := ⟨fuel - 1, by simp at hfuel; omega⟩
    cases hchain
    rfl
  | cons p ps ih =>
    obtain ⟨fuel, rfl⟩ : ∃ n, fuel = n + 1 := ⟨fuel - 1, by simp at hfuel; omega⟩
    obtain ⟨rfl, es, nx, hpage, hchain⟩ := hchain
    simp only [List.flatMap_cons, entriesAt_leaf hpage, List.forall_mem_append,
      List.pairwise_append] at hst hsorted ⊢
    obtain ⟨l, es', rfl, hl, hes', hlo⟩ := scanStart_eq (K := K) hst.1 hstart hsorted.1
    have hst' := (List.forall_mem_append.mp hst.1).2
    obtain ⟨stopped, hscan, hstopped⟩ := scanLeaf_eq hst' hstop
      (List.pairwise_append.mp hsorted.1).2.1
    have hl₀ : l.filter (within O start stop) = [] := by
      refine List.filter_eq_nil_iff.mpr fun a ha => ?_
      obtain ⟨k, hk, hlt⟩ := hl a ha
      cases hk
      simp [within, not_le.mpr hlt]
    have hes₀ : es'.filter (within O start stop) = es'.filter (within O none stop) := by
      refine List.filter_congr fun a ha => ?_
      cases start with
      | none => rfl
      | some k => simp [within, hes' a ha k rfl]
    unfold rangeScanFrom
    rw [if_neg (by rintro rfl; simp at hne), run_bind_ok (fetchPage_eq hpage),
      readLeaf_eq hst.1, run_bind_ok (PageM.lift_ok _ _)]
    simp only [hlo]
    rw [run_bind_ok (PageM.lift_ok _ _)]
    rw [show ((l ++ es').map O.dec).drop l.length = es'.map O.dec by simp, hscan,
      run_bind_ok (PageM.lift_ok _ _)]
    simp only [List.filter_append, hl₀, hes₀, List.nil_append, List.map_append]
    cases stopped with
    | true =>
      obtain ⟨k, hk, a, ha, hlt⟩ := hstopped rfl
      cases hk
      have hrest : (ps.flatMap (entriesAt s)).filter (within O start (some k)) = [] := by
        refine List.filter_eq_nil_iff.mpr fun b hb => ?_
        have := hlt.trans_le (hsorted.2.2 a (List.mem_append_right _ ha) b hb)
        simp [within, not_le.mpr this]
      simp [hrest]
    | false =>
      simp only [Bool.false_eq_true, reduceIte]
      rw [run_bind_ok (ih hchain (fun h => hne (List.mem_cons_of_mem _ h)) hst.2 hsorted.2.1
        (by simpa using hfuel))]
      rfl

/-- Always taking the first child leads to the first node of a level, whatever the loop that goes
    down notes on its way. -/
theorem Tower.leftmost (ht : Tower O s height root h level) :
    ∃ path p after, level = .node p :: after ∧ Focus O s height root h path [] p after ∧
      ∀ {σ α : Type} (loop : Nat → Nat → σ → PageM ε τ α) (note : σ → σ),
        (∀ fuel pageId noted child rest, s[pageId]? = some (.internal child rest) →
          InternalFits O child rest → loop (fuel + 1) pageId noted s = loop fuel child (note noted) s) →
        ∀ fuel noted, loop (fuel + path.length) root noted s = loop fuel p (note^[path.length] noted) s := by
  induction ht with
  | root hlevel => exact ⟨[], root, [], rfl, .root hlevel, fun loop note hloop fuel noted => rfl⟩
  | @down h level hup hnodes hlevel ih =>
    obtain ⟨path, q, after, rfl, hf, hrun⟩ := ih
    obtain ⟨child, rest, hpage, hfits, -⟩ := hnodes q (by simp)
    have hpage' : s[q]? = some (.internal (zipFirst ([] : List (Nat × ε)) child)
        (zipRest [] child rest)) := hpage
    obtain ⟨heq, hf'⟩ := hf.child hnodes hlevel hpage'
    refine ⟨q :: path, child, right rest ++ expand (rowAt s) after, heq, hf',
      fun loop note hloop fuel noted => ?_⟩
    rw [List.length_cons, ← Nat.add_assoc, Nat.add_right_comm, hrun loop note hloop (fuel + 1),
      hloop _ _ _ _ _ hpage hfits, Function.iterate_succ_apply']

theorem Tree.height_root (ht : Tree O s height root level) : ∃ j, height root = some j := by
  obtain ⟨path, p, after, -, hf, -⟩ := ht.tower.leftmost
  exact ⟨_, hf.height_root⟩

/-- What a loop that goes down through the first children comes to. -/
theorem Tree.leftmost_loop {σ α : Type} (ht : Tree O s height root level)
    (loop : Nat → Nat → σ → PageM ε τ α) (note : σ → σ)
    (hloop : ∀ fuel pageId noted child rest, s[pageId]? = some (.internal child rest) →
      InternalFits O child rest → loop (fuel + 1) pageId noted s = loop fuel child (note noted) s) :
    ∃ H p after es nx fuel, level = .node p :: after ∧ height root = some H ∧
      s[p]? = some (.leaf es nx) ∧
      ∀ noted, loop (s.length + 1) root noted s = loop (fuel + 1) p (note^[H] noted) s := by
  obtain ⟨path, p, after, rfl, hf, hrun⟩ := ht.tower.leftmost
  obtain ⟨es, nx, hpage, -⟩ := ht.leaf p (by simp)
  have hlen := hf.length_path_le
  obtain ⟨fuel, hfuel⟩ : ∃ fuel, s.length + 1 = fuel + 1 + path.length :=
    ⟨s.length - path.length, by omega⟩
  refine ⟨path.length, p, after, es, nx, fuel, rfl, ?_, hpage, fun noted => ?_⟩
  · simpa using hf.height_root
  · rw [hfuel]
    exact hrun loop note hloop (fuel + 1) noted

theorem leftmostLeafFrom_internal {fuel pageId child : Nat} {rest : List (ε × Nat)}
    (hpage : s[pageId]? = some (.internal child rest)) (hfits : InternalFits O child rest) :
    leftmostLeafFrom K (fuel + 1) pageId s = leftmostLeafFrom K fuel child s := by
  rw [leftmostLeafFrom, run_bind_ok (fetchPage_eq hpage)]
  simp only [isLeaf, Bool.false_eq_true, reduceIte]
  rw [readInternal_eq hfits.stored, run_bind_ok (PageM.lift_ok _ _)]
  rfl

theorem Tree.leftmostLeaf (ht : Tree O s height root level) :
    ∃ p after, level = .node p :: after ∧ leftmostLeaf K root s = .ok p s := by
  obtain ⟨H, p, after, es, nx, fuel, rfl, -, hpage, hrun⟩ := ht.leftmost_loop
    (fun fuel pageId (_ : Unit) => leftmostLeafFrom K fuel pageId) id
    fun _ _ _ _ _ hpage hfits => leftmostLeafFrom_internal hpage hfits
  refine ⟨p, after, rfl, ?_⟩
  change leftmostLeafFrom K (s.length + 1) root s = _
  rw [hrun (), leftmostLeafFrom, run_bind_ok (fetchPage_eq hpage)]
  rfl

/-- The leaf a scan begins at: no entry before it is in range. -/
theorem Tree.firstLeaf {start : Option κ} (ht : Tree O s height root level)
    (hstart : ∀ k ∈ start, O.Comparable k) :
    ∃ before p after, level = before ++ .node p :: after ∧
      (∀ a ∈ entries s before, ∃ k ∈ start, O.rk a.1 < O.rank k) ∧
      firstLeaf K root start s = .ok p s := by
  cases start with
  | none =>
    obtain ⟨p, after, rfl, hrun⟩ := ht.leftmostLeaf
    exact ⟨[], p, after, rfl, by simp [entries], hrun⟩
  | some k =>
    obtain ⟨path, before, p, after, es, nx, hf⟩ := ht.find (hstart k rfl)
    exact ⟨before, p, after, hf.level_eq, fun a ha => ⟨k, rfl, hf.entries_lt a ha⟩, hf.findLeaf⟩

/-- `range_scan` yields the entries in range, in order, unless a leaf has the page
    id that ends the chain. -/
theorem Tree.rangeScan_eq {start stop : Option κ} (ht : Tree O s height root level)
    (hne : invalidPageId ∉ nodes level) (hstart : ∀ k ∈ start, O.Comparable k)
    (hstop : ∀ k ∈ stop, O.Comparable k) :
    rangeScan K root start stop s =
      .ok (((entries s level).filter (within O start stop)).map O.dec) s := by
  obtain ⟨before, p, after, rfl, hbefore, hrun⟩ := ht.firstLeaf hstart
  obtain ⟨first, hchain⟩ := ht.chain
  rw [nodes_append, chain_append] at hchain
  obtain ⟨mid, -, hmid⟩ := hchain
  obtain ⟨rfl, es, nx, hpage, hrest⟩ := hmid
  have hst := ht.stored
  have hsorted := ht.entries_sorted
  have hlen := ht.tower.toLevel.length_le
  rw [entries_eq_flatMap, nodes_append, List.flatMap_append] at hst hsorted
  have hskip : (entries s before).filter (within O start stop) = [] := by
    refine List.filter_eq_nil_iff.mpr fun a ha => ?_
    obtain ⟨k, hk, hlt⟩ := hbefore a ha
    cases hk
    simp [within, not_le.mpr hlt]
  rw [entries_eq_flatMap, nodes_append, List.flatMap_append, ← entries_eq_flatMap,
    List.filter_append, hskip, List.nil_append, rangeScan, run_bind_ok hrun]
  refine rangeScanFrom_eq hstart hstop ⟨rfl, es, nx, hpage, hrest⟩ (fun h => hne ?_)
    (List.forall_mem_append.mp hst).2 (List.pairwise_append.mp hsorted).2.1 ?_
  · rw [nodes_append]
    exact List.mem_append_right _ h
  · rw [nodes_append, List.length_append] at hlen
    omega

/-! ## Keys that cannot be compared -/

theorem bisect_raises {below : κ → Except PyError Bool} {e : PyError} {l : List κ}
    (h : ∀ y ∈ l, below y = .error e) (hl : l ≠ []) : bisect below l l.length 0 l.length = .error e := by
  obtain ⟨n, hn⟩ : ∃ n, l.length = n + 1 := Nat.exists_eq_succ_of_ne_zero (by simpa using hl)
  have hmid : (0 + (n + 1)) / 2 < l.length := by omega
  rw [hn, bisect, if_pos (Nat.succ_pos n), List.getElem?_eq_getElem hmid]
  simp only [h _ (List.getElem_mem hmid)]
  rfl

/-- The root is the whole level, or an internal node with a key. -/
theorem Tower.root_cases (ht : Tower O s height root h level) :
    level = [.node root] ∨ (IsInternal O s 1 root ∧ seps level ≠ []) := by
  induction ht with
  | root => exact .inl rfl
  | @down h level hup hnodes hlevel ih =>
    obtain rfl | ⟨hroot, hseps⟩ := ih
    · obtain ⟨child, rest, hpage, hfits, hlo, hhi⟩ :=
        (hnodes root (by simp)).mono (one_le_minKeysOf K root root)
      refine .inr ⟨⟨child, rest, hpage, hfits, hlo, hhi⟩, ?_⟩
      have hrest : rest ≠ [] := fun hnil => by simp [hnil] at hlo
      simpa [rowAt_internal hpage, row] using hrest
    · exact .inr ⟨hroot, fun hnil => hseps (List.sublist_nil.mp (hnil ▸ seps_sublist_expand level))⟩

theorem findLeafPath_leaf {x : κ} {es : List (ε × RID)} {nx : Nat}
    (hpage : s[root]? = some (.leaf es nx)) : findLeafPath K root x s = .ok [root] s := by
  change findLeafPathFrom K x (s.length + 1) root [root] s = _
  rw [findLeafPathFrom, run_bind_ok (fetchPage_eq hpage)]
  rfl

/-- How a tree meets a key that raises in every comparison: it is an empty leaf, its root
    raises, or it is a leaf that raises. -/
theorem Tree.incomparable {x : κ} {e : PyError} (ht : Tree O s height root level)
    (hlt : ∀ k, O.Stored k → K.lt (O.val k) x = .error e ∧ K.lt x (O.val k) = .error e) :
    (entries s level = [] ∧ level = [.node root] ∧ s[root]? = some (.leaf [] invalidPageId)) ∨
    (entries s level ≠ [] ∧ findLeafPath K root x s = .error e s) ∨
    (entries s level ≠ [] ∧ level = [.node root] ∧ ∃ es nx, s[root]? = some (.leaf es nx) ∧
      readLeaf K (.leaf es nx : Page ε τ) = .ok (es.map O.dec, nx) ∧
      bisectLeft K ((es.map O.dec).map (·.1)) x = .error e ∧
      bisectRight K ((es.map O.dec).map (·.1)) x = .error e) := by
  obtain rfl | ⟨⟨child, rest, hpage, hfits, hrest, -⟩, hseps⟩ := ht.tower.root_cases
  · obtain ⟨es, nx, hpage, hfits, hlen, -⟩ := ht.leaf root (by simp)
    have hentries : entries s [.node root] = es := by simp [entries, entriesAt_leaf hpage]
    rw [hentries]
    cases es with
    | nil =>
      obtain ⟨first, rfl, es', nx', hpage', hlast⟩ := ht.chain
      obtain ⟨rfl, rfl⟩ : [] = es' ∧ nx = nx' := by simpa [hpage] using hpage'
      obtain rfl : nx = invalidPageId := hlast
      exact .inl ⟨rfl, rfl, hpage⟩
    | cons a es =>
      have hkey : ∀ y ∈ ((a :: es).map O.dec).map (·.1), ∃ k, O.Stored k ∧ y = O.val k := by
        intro y hy
        simp only [List.map_map, List.mem_map] at hy
        obtain ⟨b, hb, rfl⟩ := hy
        exact ⟨b.1, hfits.stored b hb, rfl⟩
      refine .inr (.inr ⟨List.cons_ne_nil _ _, rfl, a :: es, nx, hpage, readLeaf_eq hfits.stored,
        bisect_raises (fun y hy => ?_) (by simp), bisect_raises (fun y hy => ?_) (by simp)⟩)
      · obtain ⟨k, hk, rfl⟩ := hkey y hy
        exact (hlt k hk).1
      · obtain ⟨k, hk, rfl⟩ := hkey y hy
        rw [(hlt k hk).2]
        rfl
  · -- the descent compares the keys of the root
    refine .inr (.inl ⟨fun hnil => ?_, ?_⟩)
    · obtain ⟨p, after, rfl, -⟩ := ht.leftmostLeaf
      obtain ⟨es, nx, hleaf, -, -, hempty⟩ := ht.leaf p (by simp)
      have hes : es = [] := by
        simp only [entries, contents_node, entriesAt_leaf hleaf, nodes_append,
          List.append_eq_nil_iff, nodes_map_node] at hnil
        exact hnil.1
      rw [hempty hes] at hseps
      exact hseps rfl
    · have hbisect : bisectRight K (rest.map fun x => O.val x.1) x = .error e := by
        refine bisect_raises (fun y hy => ?_) fun hnil => ?_
        · obtain ⟨b, hb, rfl⟩ := List.mem_map.mp hy
          rw [(hlt b.1 (hfits.stored b hb)).2]
          rfl
        · rw [List.map_eq_nil_iff.mp hnil] at hrest
          exact absurd hrest (by simp)
      change findLeafPathFrom K x (s.length + 1) root [root] s = _
      rw [findLeafPathFrom, run_bind_ok (fetchPage_eq hpage)]
      simp only [isLeaf, Bool.false_eq_true]
      rw [readInternal_eq hfits.stored, PageM.lift_ok_bind]
      dsimp only
      rw [hbisect]
      rfl

/-- A scan from a key that raises in every comparison raises, unless the tree has nothing
    to compare it with. -/
theorem Tree.rangeScan_raises {x : κ} {e : PyError} {stop : Option κ}
    (ht : Tree O s height root level) (hne : invalidPageId ∉ nodes level)
    (hlt : ∀ k, O.Stored k → K.lt (O.val k) x = .error e ∧ K.lt x (O.val k) = .error e) :
    (entries s level = [] ∧ rangeScan K root (some x) stop s = .ok [] s) ∨
    (entries s level ≠ [] ∧ rangeScan K root (some x) stop s = .error e s) := by
  have hleaf : ∀ {es nx}, s[root]? = some (.leaf es nx) →
      rangeScan K root (some x) stop s =
        rangeScanFrom K (some x) stop (s.length + 1) root s := fun hpage => by
    rw [rangeScan, BPlusTree.firstLeaf, findLeaf, bind_assoc,
      run_bind_ok (findLeafPath_leaf hpage)]
    rfl
  obtain ⟨hnil, rfl, hpage⟩ | ⟨hnil, hpath⟩ | ⟨hnil, rfl, es, nx, hpage, hread, hleft, -⟩ :=
    ht.incomparable hlt
  · have hroot : ¬root = invalidPageId := fun heq => hne (by simp [heq])
    obtain ⟨n, hn⟩ : ∃ n, s.length = n + 1 := Nat.exists_eq_succ_of_ne_zero fun h0 => by
      simp [List.length_eq_zero_iff.mp h0] at hpage
    refine .inl ⟨hnil, ?_⟩
    rw [hleaf hpage, hn, rangeScanFrom, if_neg hroot, run_bind_ok (fetchPage_eq hpage)]
    rfl
  · refine .inr ⟨hnil, ?_⟩
    rw [rangeScan, BPlusTree.firstLeaf, findLeaf]
    exact run_bind_error (run_bind_error hpath)
  · have hroot : ¬root = invalidPageId := fun heq => hne (by simp [heq])
    refine .inr ⟨hnil, ?_⟩
    rw [hleaf hpage, rangeScanFrom, if_neg hroot, run_bind_ok (fetchPage_eq hpage), hread,
      PageM.lift_ok_bind]
    dsimp only
    rw [scanStart, hleft]
    rfl

/-- So does a search. -/
theorem Tree.search_raises {x : κ} {e : PyError} (ht : Tree O s height root level)
    (hlt : ∀ k, O.Stored k → K.lt (O.val k) x = .error e ∧ K.lt x (O.val k) = .error e) :
    (entries s level = [] ∧ search K root x s = .ok [] s) ∨
    (entries s level ≠ [] ∧ search K root x s = .error e s) := by
  have hleaf : ∀ {es nx}, s[root]? = some (.leaf es nx) → findLeaf K root x s = .ok root s :=
    fun hpage => by
      rw [findLeaf, run_bind_ok (findLeafPath_leaf hpage)]
      rfl
  obtain ⟨hnil, rfl, hpage⟩ | ⟨hnil, hpath⟩ | ⟨hnil, rfl, es, nx, hpage, hread, hleft, -⟩ :=
    ht.incomparable hlt
  · refine .inl ⟨hnil, ?_⟩
    rw [search, run_bind_ok (hleaf hpage), run_bind_ok (fetchPage_eq hpage)]
    rfl
  · refine .inr ⟨hnil, ?_⟩
    rw [search, findLeaf]
    exact run_bind_error (run_bind_error hpath)
  · refine .inr ⟨hnil, ?_⟩
    rw [search, run_bind_ok (hleaf hpage), run_bind_ok (fetchPage_eq hpage), hread,
      PageM.lift_ok_bind]
    dsimp only
    rw [hleft]
    rfl

end Minirel.BPlusTree

-- SUMMARY: How a leaf that got too small is repaired, and the one way that can overflow a page.
import Minirel.Index.Fixup
import Minirel.Index.Split

/-!
# Repairing a leaf

`_fixup_leaf` moves a run of equal keys over from a neighbour, merges the two
leaves, or cuts their entries afresh. The entries of the two read the same from
left to right afterwards. A fresh cut may put too many entries on the left leaf,
when the run of equal keys in the middle reaches far enough to the right.
-/

namespace Minirel.BPlusTree

open Row

variable {κ ε τ R : Type} [LinearOrder R] {K : KeyType κ ε} {O : KeyOrder K R}
  {s s' : PageFile ε τ} {height : Nat → Option Nat} {root h p : Nat} {path : List Nat}
  {before after level : List (Item Nat ε)}

/-! ## Runs of equal keys at the ends of a leaf -/

theorem leadingRun_eq {x : ε × RID} {run rest : List (ε × RID)}
    (hst : ∀ a ∈ x :: (run ++ rest), O.Stored a.1) (hrun : ∀ a ∈ run, O.rk a.1 = O.rk x.1)
    (hrest : ∀ a ∈ rest, O.rk a.1 ≠ O.rk x.1) :
    leadingRun K ((x :: (run ++ rest)).map O.dec) = run.length + 1 := by
  have heq : ∀ a ∈ run ++ rest, K.eq (O.dec a).1 (O.val x.1) = decide (O.rk a.1 = O.rk x.1) :=
    fun a ha => O.eq_eq (O.comparable_val (hst a (List.mem_cons_of_mem _ ha)))
      (O.comparable_val (hst x (by simp)))
  have hwhile : ((run ++ rest).map O.dec).takeWhile (K.eq ·.1 (O.val x.1)) = run.map O.dec := by
    rw [List.map_append]
    refine takeWhile_append_eq (List.forall_mem_map.mpr fun a ha => ?_)
      (List.forall_mem_map.mpr fun a ha => ?_)
    · rw [heq a (List.mem_append_left _ ha)]
      simpa using hrun a ha
    · rw [heq a (List.mem_append_right _ ha)]
      simpa using hrest a ha
  rw [List.map_cons]
  unfold leadingRun
  change 1 + (((run ++ rest).map O.dec).takeWhile (K.eq ·.1 (O.val x.1))).length = _
  rw [hwhile, List.length_map, Nat.add_comm]

/-- The leading run of a sorted leaf: its keys are equal, and smaller than the
    others. -/
theorem exists_leadingRun {es : List (ε × RID)} (hst : ∀ a ∈ es, O.Stored a.1)
    (hsorted : es.Pairwise fun a b => O.rk a.1 ≤ O.rk b.1) (hne : es ≠ []) :
    ∃ run rest, es = run ++ rest ∧ leadingRun K (es.map O.dec) = run.length ∧ run ≠ [] ∧
      ∀ a ∈ run, ∀ b ∈ rest, O.rk a.1 < O.rk b.1 := by
  obtain ⟨x, es, rfl⟩ := List.exists_cons_of_ne_nil hne
  rw [List.pairwise_cons] at hsorted
  obtain ⟨run, rest, rfl, hrun, hrest⟩ := exists_cut_le hsorted.2 (O.rk x.1)
  have hrun' : ∀ a ∈ run, O.rk a.1 = O.rk x.1 := fun a ha =>
    le_antisymm (hrun a ha) (hsorted.1 a (List.mem_append_left _ ha))
  refine ⟨x :: run, rest, rfl, leadingRun_eq hst hrun' fun a ha => (hrest a ha).ne', by simp, ?_⟩
  rw [List.forall_mem_cons]
  exact ⟨hrest, fun a ha b hb => (hrun' a ha).trans_lt (hrest b hb)⟩

theorem exists_trailingRun {es : List (ε × RID)} (hst : ∀ a ∈ es, O.Stored a.1)
    (hsorted : es.Pairwise fun a b => O.rk a.1 ≤ O.rk b.1) (hne : es ≠ []) :
    ∃ rest run, es = rest ++ run ∧ trailingRun K (es.map O.dec) = run.length ∧ run ≠ [] ∧
      ∀ a ∈ rest, ∀ b ∈ run, O.rk a.1 < O.rk b.1 := by
  obtain ⟨es, x, rfl⟩ : ∃ l x, es = l ++ [x] :=
    ⟨es.dropLast, es.getLast hne, (List.dropLast_append_getLast _).symm⟩
  rw [List.pairwise_append] at hsorted
  obtain ⟨rest, run, rfl, hrest, hrun⟩ := exists_cut_lt hsorted.1 (O.rk x.1)
  have hrun' : ∀ a ∈ run, O.rk a.1 = O.rk x.1 := fun a ha =>
    le_antisymm (hsorted.2.2 a (List.mem_append_right _ ha) x (by simp)) (hrun a ha)
  refine ⟨rest, run ++ [x], by simp, ?_, by simp, fun a ha b hb => ?_⟩
  · have hrev : ((rest ++ run ++ [x]).map O.dec).reverse =
        (x :: (run.reverse ++ rest.reverse)).map O.dec := by
      simp
    rw [trailingRun, hrev, leadingRun_eq ?_ (by simpa using hrun') ?_]
    · simp
    · intro a ha
      refine hst a ?_
      simp only [List.mem_cons, List.mem_append, List.mem_reverse] at ha ⊢
      tauto
    · intro a ha
      exact (hrest a (List.mem_reverse.mp ha)).ne
  · obtain hb | hb := List.mem_append.mp hb
    · exact (hrun' b hb).symm ▸ hrest a ha
    · rw [List.mem_singleton.mp hb]
      exact hrest a ha

/-! ## Two neighbouring leaves -/

/-- Two leaves next to each other under one parent. -/
structure LeafPair (O : KeyOrder K R) (s : PageFile ε τ) (parent : Nat) (ls : List (Nat × ε))
    (a : Nat) (k : ε) (b : Nat) (rs : List (ε × Nat)) (ea eb : List (ε × RID)) (nb : Nat) :
    Prop where
  neighbours : Neighbours O s parent ls a k b rs
  left : s[a]? = some (.leaf ea b)
  right : s[b]? = some (.leaf eb nb)
  fits_left : LeafFits O ea b
  fits_right : LeafFits O eb nb
  length_left : ea.length ≤ maxLeafKeys K
  length_right : eb.length ≤ maxLeafKeys K
  sorted : (ea ++ eb).Pairwise fun x y => O.rk x.1 ≤ O.rk y.1
  strict : ∀ x ∈ ea, ∀ y ∈ eb, O.rk x.1 < O.rk y.1

/-- Two leaves repaired: their entries cut at another place between different keys,
    or all on the left one. -/
def LeafRepaired (O : KeyOrder K R) (s s' : PageFile ε τ) (parent : Nat) (ls : List (Nat × ε))
    (a b : Nat) (rs : List (ε × Nat)) (ea eb : List (ε × RID)) (nb : Nat) : Prop :=
  (∃ l x r, ea ++ eb = l ++ x :: r ∧ l ≠ [] ∧ (∀ y ∈ l, O.rk y.1 < O.rk x.1) ∧
    l.length ≤ maxLeafKeys K ∧ (x :: r).length ≤ maxLeafKeys K ∧
    s' = ((s.set b (.leaf (x :: r) nb)).set a (.leaf l b)).set parent (pairPage ls a x.1 b rs)) ∨
  ((ea ++ eb).length ≤ maxLeafKeys K ∧
    s' = (s.set a (.leaf (ea ++ eb) nb)).set parent (.internal (zipFirst ls a) (zipRest ls a rs)))

section LeafPair
variable {parent a b nb : Nat} {ls : List (Nat × ε)} {k : ε} {rs : List (ε × Nat)}
  {ea eb : List (ε × RID)}

theorem LeafPair.fits (hp : LeafPair O s parent ls a k b rs ea eb nb) : LeafFits O (ea ++ eb) nb :=
  hp.fits_left.append hp.fits_right

theorem LeafPair.fits_cut {l r : List (ε × RID)} {x : ε × RID}
    (hp : LeafPair O s parent ls a k b rs ea eb nb) (heq : ea ++ eb = l ++ x :: r) :
    LeafFits O l b ∧ LeafFits O (x :: r) nb :=
  ⟨hp.fits.of_subset (by rw [heq]; simp) hp.fits_left.next,
    hp.fits.of_subset (by rw [heq]; simp) hp.fits_right.next⟩

/-- Committing the separator of a new cut, after both leaves are written. -/
theorem LeafPair.commit {k' : ε} (hp : LeafPair O s parent ls a k b rs ea eb nb)
    (hk' : O.Stored k') (A B : Page ε τ) :
    commitInternal K parent (pairChildren ls a b rs)
        ((pairKeys O ls k rs).set ls.length (O.val k')) ((s.set b B).set a A) =
      .ok () (((s.set b B).set a A).set parent (pairPage ls a k' b rs)) := by
  have hn := hp.neighbours
  have hparent : ((s.set b B).set a A)[parent]? = some (pairPage ls a k b rs) := by
    rw [List.getElem?_set_ne hn.ne_left, List.getElem?_set_ne hn.ne_right, hn.page]
  exact commitInternal_set hparent (hn.fits_set hk') hn.length_le

theorem borrowRightLeaf_spec (hp : LeafPair O s parent ls a k b rs ea eb nb) (hne : eb ≠ [])
    (hlend : canLend K (leadingRun K (eb.map O.dec)) eb.length ea.length) :
    ∃ s', borrowRightLeaf K parent a (pairChildren ls a b rs) (pairKeys O ls k rs) ls.length
        (ea.map O.dec) b s = .ok true s' ∧ LeafRepaired O s s' parent ls a b rs ea eb nb := by
  obtain ⟨run, rest, rfl, hrun, hpos, hlt⟩ := exists_leadingRun hp.fits_right.stored
    (List.pairwise_append.mp hp.sorted).2.1 hne
  rw [hrun] at hlend
  have hlend' := hlend
  simp only [canLend, decide_eq_true_eq, List.length_append] at hlend'
  have hrest : rest ≠ [] := by
    rintro rfl
    simp at hlend'
  obtain ⟨x, r, rfl⟩ := List.exists_cons_of_ne_nil hrest
  have heq : ea ++ (run ++ x :: r) = (ea ++ run) ++ x :: r := (List.append_assoc ..).symm
  have hlenl : (ea ++ run).length ≤ maxLeafKeys K := by
    rw [List.length_append]
    omega
  have hlenr : (x :: r).length ≤ maxLeafKeys K := by
    have := hp.length_right
    rw [List.length_append] at this
    omega
  obtain ⟨hfl, hfr⟩ := hp.fits_cut heq
  refine ⟨_, ?_, .inl ⟨ea ++ run, x, r, heq, by simp [hpos], fun y hy => ?_, hlenl, hlenr, rfl⟩⟩
  · have hwb : writeLeaf K b (((run ++ x :: r).map O.dec).drop run.length) nb s =
        .ok () (s.set b (.leaf (x :: r) nb)) := writeLeaf_eq hfr hlenr (by simp) s
    have ha : (s.set b (.leaf (x :: r) nb))[a]? = some (.leaf ea b) := by
      rw [List.getElem?_set_ne hp.neighbours.ne.symm, hp.left]
    have hwa : writeLeaf K a (ea.map O.dec ++ ((run ++ x :: r).map O.dec).take run.length) b
        (s.set b (.leaf (x :: r) nb)) =
          .ok () ((s.set b (.leaf (x :: r) nb)).set a (.leaf (ea ++ run) b)) :=
      writeLeaf_eq hfl hlenl (by simp) _
    have hsep : pyGet (((run ++ x :: r).map O.dec).drop run.length) 0 = .ok (O.dec x) := by
      simp [pyGet]
    rw [borrowRightLeaf, pairChildren_right]
    dsimp only
    rw [run_bind_ok (fetchPage_eq hp.right), readLeaf_eq hp.fits_right.stored,
      run_bind_ok (PageM.lift_ok _ _)]
    dsimp only
    rw [hrun, List.length_map, List.length_map, if_pos hlend, run_bind_ok hwb,
      run_bind_ok (fetchPage_eq ha), run_bind_ok hwa, hsep, run_bind_ok (PageM.lift_ok _ _)]
    exact run_bind_ok (hp.commit (hfr.stored x (by simp)) _ _)
  · obtain hy | hy := List.mem_append.mp hy
    · exact hp.strict y hy x (by simp)
    · exact hlt y hy x (by simp)

theorem borrowLeftLeaf_spec (hp : LeafPair O s parent ls a k b rs ea eb nb) (hne : ea ≠ [])
    (hlend : canLend K (trailingRun K (ea.map O.dec)) ea.length eb.length) :
    ∃ s', borrowLeftLeaf K parent b (pairChildren ls a b rs) (pairKeys O ls k rs)
        (ls.length + 1) (eb.map O.dec) nb s = .ok true s' ∧
      LeafRepaired O s s' parent ls a b rs ea eb nb := by
  obtain ⟨l, run, rfl, hrun, hpos, hlt⟩ := exists_trailingRun hp.fits_left.stored
    (List.pairwise_append.mp hp.sorted).1 hne
  rw [hrun] at hlend
  have hlend' := hlend
  simp only [canLend, decide_eq_true_eq, List.length_append] at hlend'
  obtain ⟨x, r, rfl⟩ := List.exists_cons_of_ne_nil hpos
  have heq : l ++ x :: r ++ eb = l ++ x :: (r ++ eb) := by simp
  have hlenl : l.length ≤ maxLeafKeys K := by
    have := hp.length_left
    rw [List.length_append] at this
    omega
  have hlenr : (x :: (r ++ eb)).length ≤ maxLeafKeys K := by
    simp only [List.length_cons, List.length_append] at hlend' ⊢
    omega
  obtain ⟨hfl, hfr⟩ := hp.fits_cut heq
  have hl : l ≠ [] := by
    rintro rfl
    simp at hlend'
  refine ⟨_, ?_, .inl ⟨l, x, r ++ eb, heq, hl, fun y hy => hlt y hy x (by simp), hlenl, hlenr,
    rfl⟩⟩
  · have hcut : ((l ++ x :: r).map O.dec).length - (x :: r).length = l.length := by simp
    have htake : ((l ++ x :: r).map O.dec).take l.length = l.map O.dec := by simp
    have hdrop : ((l ++ x :: r).map O.dec).drop l.length = (x :: r).map O.dec := by simp
    have hwa : writeLeaf K a (l.map O.dec) b s = .ok () (s.set a (.leaf l b)) :=
      writeLeaf_eq hfl hlenl rfl s
    have hb : (s.set a (.leaf l b))[b]? = some (.leaf eb nb) := by
      rw [List.getElem?_set_ne hp.neighbours.ne, hp.right]
    have hwb : writeLeaf K b ((x :: r).map O.dec ++ eb.map O.dec) nb (s.set a (.leaf l b)) =
        .ok () ((s.set b (.leaf (x :: (r ++ eb)) nb)).set a (.leaf l b)) := by
      rw [List.set_comm _ _ hp.neighbours.ne.symm]
      exact writeLeaf_eq hfr hlenr (by simp) _
    have hsep : pyGet ((x :: r).map O.dec ++ eb.map O.dec) 0 = .ok (O.dec x) := rfl
    rw [borrowLeftLeaf, if_neg (Nat.succ_ne_zero _), Nat.add_sub_cancel, pairChildren_left,
      run_bind_ok (PageM.lift_ok _ _), run_bind_ok (fetchPage_eq hp.left),
      readLeaf_eq hp.fits_left.stored, run_bind_ok (PageM.lift_ok _ _)]
    dsimp only
    rw [hrun, hcut, htake, hdrop, List.length_map, List.length_map, if_pos hlend,
      run_bind_ok hwa, run_bind_ok (fetchPage_eq hb), run_bind_ok hwb, hsep,
      run_bind_ok (PageM.lift_ok _ _)]
    exact run_bind_ok (hp.commit (hfr.stored x (by simp)) _ _)

/-- All entries on the left leaf. -/
theorem LeafPair.merge (hp : LeafPair O s parent ls a k b rs ea eb nb)
    (hlen : (ea ++ eb).length ≤ maxLeafKeys K) :
    ∃ s', combineLeaves K parent a b (pairChildren ls a b rs) (pairKeys O ls k rs) ls.length
        ((ea ++ eb).map O.dec) nb s = .ok () s' ∧
      LeafRepaired O s s' parent ls a b rs ea eb nb := by
  refine ⟨_, ?_, .inr ⟨hlen, rfl⟩⟩
  have hn := hp.neighbours
  have hparent : (s.set a (.leaf (ea ++ eb) nb))[parent]? = some (pairPage ls a k b rs) := by
    rw [List.getElem?_set_ne hn.ne_left, hn.page]
  rw [combineLeaves, if_pos (by simpa using hlen), run_bind_ok (fetchPage_eq hp.left),
    run_bind_ok (writeLeaf_eq hp.fits hlen rfl s)]
  exact commitInternal_erase hparent hn.fits_erase (by have := hn.length_le; omega)

/-- The entries cut afresh, where the halves fit. -/
theorem LeafPair.redistribute {l r : List (ε × RID)} {x : ε × RID}
    (hp : LeafPair O s parent ls a k b rs ea eb nb) (hlen : maxLeafKeys K < (ea ++ eb).length)
    (heq : ea ++ eb = l ++ x :: r)
    (hsplit : splitPointAvoidingDuplicates K (((ea ++ eb).map O.dec).map (·.1)) = .ok l.length) :
    combineLeaves K parent a b (pairChildren ls a b rs) (pairKeys O ls k rs) ls.length
        ((ea ++ eb).map O.dec) nb s =
      if l.length ≤ maxLeafKeys K then
        if (x :: r).length ≤ maxLeafKeys K then
          .ok () (((s.set b (.leaf (x :: r) nb)).set a (.leaf l b)).set parent
            (pairPage ls a x.1 b rs))
        else .error .structError ((s.set a (.leaf l b)).set b .torn)
      else .error .structError (s.set a .torn) := by
  have hn := hp.neighbours
  obtain ⟨hfl, hfr⟩ := hp.fits_cut heq
  have htake : ((ea ++ eb).map O.dec).take l.length = l.map O.dec := by
    rw [heq]
    simp
  have hdrop : ((ea ++ eb).map O.dec).drop l.length = (x :: r).map O.dec := by
    rw [heq]
    simp
  have hget : pyGet ((ea ++ eb).map O.dec) l.length = .ok (O.dec x) := by
    have := pyGet_append (l.map O.dec) (r.map O.dec) (O.dec x)
    rw [heq]
    simpa using this
  have hwa := writeLeaf_dec hfl a s
  rw [combineLeaves, if_neg (by simpa using hlen), hsplit, run_bind_ok (PageM.lift_ok _ _),
    run_bind_ok (fetchPage_eq hp.left), htake, hdrop]
  split
  · rename_i hl
    rw [if_pos hl] at hwa
    have hb : (s.set a (.leaf l b))[b]? = some (.leaf eb nb) := by
      rw [List.getElem?_set_ne hn.ne, hp.right]
    have hwb := writeLeaf_dec hfr b (s.set a (.leaf l b))
    rw [run_bind_ok hwa, run_bind_ok (fetchPage_eq hb)]
    split
    · rename_i hr
      rw [if_pos hr, List.set_comm _ _ hn.ne] at hwb
      rw [run_bind_ok hwb, hget, run_bind_ok (PageM.lift_ok _ _)]
      exact hp.commit (hfr.stored x (by simp)) _ _
    · rename_i hr
      rw [if_neg hr] at hwb
      exact run_bind_error hwb
  · rename_i hl
    rw [if_neg hl] at hwa
    exact run_bind_error hwa

/-- How many entries of a sorted list have a key up to that of the last entry of
    its first half. -/
def upToMiddle (O : KeyOrder K R) (es : List (ε × RID)) : Nat :=
  match es[es.length / 2 - 1]? with
  | none => 0
  | some m => (es.filter fun x => O.rk x.1 ≤ O.rk m.1).length

theorem MidRun.upToMiddle {es before run after : List (ε × RID)}
    (hm : MidRun O es before run after) : upToMiddle O es = before.length + run.length := by
  obtain ⟨rfl, -, hbelow, hequal, habove, hlt, hle⟩ := hm
  generalize hi : (before ++ run ++ after).length / 2 - 1 - before.length = i
  have hget : (before ++ run ++ after)[(before ++ run ++ after).length / 2 - 1]? = run[i]? := by
    rw [List.append_assoc, List.getElem?_append_right (by simp at hlt ⊢; omega),
      List.getElem?_append_left (by simp at hlt hle ⊢; omega), ← List.append_assoc, hi]
  have hi' : i < run.length := by omega
  have hm : run[i] ∈ run := List.getElem_mem hi'
  rw [BPlusTree.upToMiddle, hget, List.getElem?_eq_getElem hi']
  dsimp only
  rw [List.filter_append, List.filter_eq_self.mpr, List.filter_eq_nil_iff.mpr]
  · simp
  · intro x hx
    simpa using habove _ hm x hx
  · intro x hx
    obtain hx | hx := List.mem_append.mp hx
    · simpa using (hbelow x hx _ hm).le
    · simpa using (hequal x hx _ hm).le

/-- The redistribution of two leaves overflows the left one. -/
def Overfull (O : KeyOrder K R) (es : List (ε × RID)) : Prop :=
  maxLeafKeys K < upToMiddle O es ∧ upToMiddle O es < es.length

theorem LeafPair.overfull (hp : LeafPair O s parent ls a k b rs ea eb nb)
    (hover : Overfull O (ea ++ eb)) :
    combineLeaves K parent a b (pairChildren ls a b rs) (pairKeys O ls k rs) ls.length
      ((ea ++ eb).map O.dec) nb s = .error .structError (s.set a .torn) := by
  obtain ⟨hmax, hlt⟩ := hover
  have h4 : 4 ≤ maxLeafKeys K := le_max_left _ _
  obtain ⟨before, run, after, hm⟩ := exists_midRun hp.fits.stored hp.sorted (by omega)
  rw [hm.upToMiddle] at hmax hlt
  have hlen := congrArg List.length hm.eq
  simp only [List.length_append] at hlen
  have hafter : after ≠ [] := by
    rintro rfl
    simp only [List.length_append, List.length_nil] at hlt hlen
    omega
  have hsplit := splitPoint_eq hm
  rw [if_pos hafter, ← List.length_append] at hsplit
  obtain ⟨x, r, rfl⟩ := List.exists_cons_of_ne_nil hafter
  rw [hp.redistribute (hmax.trans hlt) hm.eq hsplit, if_neg (by rw [List.length_append]; omega)]

/-- A run of equal keys at the end of two leaves lies in the right one. -/
theorem LeafPair.run_le {before run : List (ε × RID)}
    (hp : LeafPair O s parent ls a k b rs ea eb nb) (hne : eb ≠ []) (heq : ea ++ eb = before ++ run)
    (hequal : ∀ x ∈ run, ∀ y ∈ run, O.rk x.1 = O.rk y.1) : run.length ≤ eb.length := by
  obtain ⟨c, -, rfl⟩ | ⟨c, rfl, rfl⟩ := List.append_eq_append_iff.mp heq
  · simp
  · cases c with
    | nil => simp
    | cons x c =>
      obtain ⟨y, hy⟩ := List.exists_mem_of_ne_nil eb hne
      have hlt := hp.strict x (by simp) y hy
      exact absurd (hequal x (by simp) y (by simp [hy])) hlt.ne

/-- Two leaves that are too much for one page are cut so that both halves fit,
    unless the run in the middle reaches too far. -/
theorem LeafPair.exists_cut (hp : LeafPair O s parent ls a k b rs ea eb nb)
    (hlen : maxLeafKeys K < (ea ++ eb).length) (hno : ¬Overfull O (ea ++ eb)) :
    ∃ l x r, ea ++ eb = l ++ x :: r ∧
      splitPointAvoidingDuplicates K (((ea ++ eb).map O.dec).map (·.1)) = .ok l.length ∧
      l ≠ [] ∧ (∀ y ∈ l, O.rk y.1 < O.rk x.1) ∧ l.length ≤ maxLeafKeys K ∧
      (x :: r).length ≤ maxLeafKeys K := by
  have h4 : 4 ≤ maxLeafKeys K := le_max_left _ _
  have hla := hp.length_left
  have hlb := hp.length_right
  obtain ⟨before, run, after, hm⟩ := exists_midRun hp.fits.stored hp.sorted (by omega)
  have hsplit := splitPoint_eq hm
  have hsum := congrArg List.length hm.eq
  have hlt := hm.lt_mid
  have hle := hm.mid_le
  rw [Overfull, hm.upToMiddle] at hno
  simp only [List.length_append] at hlen hsum hlt hle hno
  have hrun : run ≠ [] := by
    rintro rfl
    simp only [List.length_nil] at hle
    omega
  obtain ⟨y, hy⟩ := List.exists_mem_of_ne_nil run hrun
  by_cases hafter : after = []
  · -- the run goes to the end: the cut is before it, and it fits as the right leaf did
    subst hafter
    rw [List.length_nil] at hsum
    have heb : eb ≠ [] := by
      rintro rfl
      simp only [List.length_nil] at hlen
      omega
    have hrunle := hp.run_le heb (by simpa using hm.eq) hm.equal
    have hbefore : before ≠ [] := by
      rintro rfl
      simp only [List.length_nil] at hsum
      omega
    rw [if_neg (by simp), if_pos hbefore] at hsplit
    obtain ⟨x, r, rfl⟩ := List.exists_cons_of_ne_nil hrun
    exact ⟨before, x, r, by simpa using hm.eq, hsplit, hbefore, fun z hz => hm.below z hz x (by simp),
      by omega, by omega⟩
  · rw [if_pos hafter, ← List.length_append] at hsplit
    obtain ⟨x, r, rfl⟩ := List.exists_cons_of_ne_nil hafter
    simp only [List.length_cons] at hsum hno ⊢
    refine ⟨before ++ run, x, r, hm.eq, hsplit, by simp [hrun], fun z hz => ?_, ?_, by omega⟩
    · obtain hz | hz := List.mem_append.mp hz
      · exact (hm.below z hz y hy).trans (hm.above y hy x (by simp))
      · exact hm.above z hz x (by simp)
    · rw [List.length_append]
      omega

theorem combineLeaves_spec (hp : LeafPair O s parent ls a k b rs ea eb nb)
    (hno : ¬Overfull O (ea ++ eb)) :
    ∃ s', combineLeaves K parent a b (pairChildren ls a b rs) (pairKeys O ls k rs) ls.length
        ((ea ++ eb).map O.dec) nb s = .ok () s' ∧
      LeafRepaired O s s' parent ls a b rs ea eb nb := by
  by_cases hlen : (ea ++ eb).length ≤ maxLeafKeys K
  · exact hp.merge hlen
  obtain ⟨l, x, r, heq, hsplit, hne, hbelow, hl, hr⟩ := hp.exists_cut (Nat.not_le.mp hlen) hno
  refine ⟨_, ?_, .inl ⟨l, x, r, heq, hne, hbelow, hl, hr, rfl⟩⟩
  rw [hp.redistribute (Nat.not_le.mp hlen) heq hsplit, if_pos hl, if_pos hr]

/-- A right leaf that got too small has no part in an overflow: the run in the
    middle lies in the left one. -/
theorem LeafPair.not_overfull (hp : LeafPair O s parent ls a k b rs ea eb nb)
    (hsmall : eb.length < minLeafKeys K) : ¬Overfull O (ea ++ eb) := by
  rintro ⟨hmax, hlt⟩
  have h4 : 4 ≤ maxLeafKeys K := le_max_left _ _
  have hla := hp.length_left
  obtain ⟨before, run, after, hm⟩ := exists_midRun hp.fits.stored hp.sorted (by omega)
  have hmid := hm.lt_mid
  have hsum := congrArg List.length hm.eq
  rw [hm.upToMiddle] at hmax hlt
  have hmin : minLeafKeys K ≤ maxLeafKeys K / 2 := by
    rw [minLeafKeys]
    omega
  simp only [List.length_append] at hsum hmid hlt
  obtain ⟨c, hc, rfl⟩ | ⟨c, rfl, -⟩ := List.append_eq_append_iff.mp hm.eq
  · obtain ⟨d, rfl, rfl⟩ | ⟨d, rfl, -⟩ := List.append_eq_append_iff.mp hc
    · -- the run would begin in the left leaf and end in the right one
      simp only [List.length_append] at hla hmid hsmall hsum hmax
      obtain ⟨x, d, rfl⟩ := List.exists_cons_of_length_pos (l := d) (by omega)
      obtain ⟨y, c, rfl⟩ := List.exists_cons_of_length_pos (l := c) (by omega)
      have hlt := hp.strict x (by simp) y (by simp)
      exact hlt.ne (hm.equal x (by simp) y (by simp))
    · simp only [List.length_append] at hsmall hmid hsum hmax hlt
      omega
  · simp only [List.length_append] at hla
    omega

end LeafPair

/-- What repairing two leaves leaves behind: their entries in the same order, on
    leaves that link up as before. -/
structure Regrouped (O : KeyOrder K R) (s : PageFile ε τ) (a nb : Nat) (es : List (ε × RID))
    (win : List (Item Nat ε)) : Prop where
  leaf : ∀ x ∈ nodes win, ∃ es nx, s[x]? = some (.leaf es nx) ∧ LeafFits O es nx ∧
    es.length ≤ maxLeafKeys K ∧ es ≠ []
  chain : Chain s a (nodes win) nb
  entries_eq : entries s win = es
  inOrder : ∀ A B, InOrder O (A ++ es.map .node ++ B) → InOrder O (A ++ contents s win ++ B)

theorem Regrouped.congr {a nb : Nat} {es : List (ε × RID)} {win : List (Item Nat ε)}
    (hr : Regrouped O s a nb es win) (h : ∀ x ∈ nodes win, s'[x]? = s[x]?) :
    Regrouped O s' a nb es win where
  leaf x hx := by
    obtain ⟨es, nx, hpage, hrest⟩ := hr.leaf x hx
    exact ⟨es, nx, (h x hx).trans hpage, hrest⟩
  chain := hr.chain.congr h
  entries_eq := by rw [entries, contents_congr h, ← entries, hr.entries_eq]
  inOrder A B hord := by
    rw [contents_congr h]
    exact hr.inOrder A B hord

section Regroup
variable {parent a b nb : Nat} {ls : List (Nat × ε)} {k : ε} {rs : List (ε × Nat)}
  {ea eb : List (ε × RID)}

theorem LeafPair.regrouped (hp : LeafPair O s parent ls a k b rs ea eb nb)
    (hrep : LeafRepaired O s s' parent ls a b rs ea eb nb) (hne : ea ++ eb ≠ []) :
    ∃ win, Rewritten O s s' parent ls a b rs win ∧ Regrouped O s' a nb (ea ++ eb) win := by
  obtain ⟨l, x, r, heq, hl, hlt, hlenl, hlenr, hs'⟩ | ⟨hlen, hs'⟩ := hrep
  · obtain ⟨hfl, hfr⟩ := hp.fits_cut heq
    obtain ⟨hw, ha, hb⟩ := hp.neighbours.rewritten_set (hfr.stored x (by simp)) _ _ hs'
    refine ⟨_, hw, ⟨?_, ?_, ?_, fun A B hord => ?_⟩⟩
    · simp only [nodes_node, nodes_sep, nodes_nil, List.forall_mem_cons]
      exact ⟨⟨_, _, ha, hfl, hlenl, hl⟩, ⟨_, _, hb, hfr, hlenr, by simp⟩, by simp⟩
    · exact ⟨rfl, _, _, ha, rfl, _, _, hb, rfl⟩
    · simp [entries, entriesAt_leaf ha, entriesAt_leaf hb, heq]
    · have hord' : InOrder O ((A ++ l.map .node) ++ .node x :: (r.map .node ++ B)) := by
        simpa [heq] using hord
      have hbelow : ∀ y ∈ nodes (A ++ l.map .node), O.rk y.1 < O.rk x.1 := by
        simp only [nodes_append, nodes_map_node, List.forall_mem_append]
        refine ⟨fun y hy => ?_, hlt⟩
        -- what stands before the leaf is at most its first entry
        obtain ⟨z, hz⟩ := List.exists_mem_of_ne_nil l hl
        have hsorted := Sorted.nodes hord'
        simp only [nodes_append, nodes_map_node] at hsorted
        exact ((List.pairwise_append.mp (List.pairwise_append.mp hsorted).1).2.2 y hy z hz).trans_lt
          (hlt z hz)
      have := Sorted.insert_sep (k := x.1) hord' rfl hbelow
      simpa [InOrder, entriesAt_leaf ha, entriesAt_leaf hb] using this
  · obtain ⟨hw, ha⟩ := hp.neighbours.rewritten_erase _ hs'
    refine ⟨_, hw, ⟨?_, ?_, ?_, fun A B hord => ?_⟩⟩
    · simp only [nodes_node, nodes_nil, List.mem_singleton, forall_eq]
      exact ⟨_, _, ha, hp.fits, hlen, hne⟩
    · exact ⟨rfl, _, _, ha, rfl⟩
    · simp [entries, entriesAt_leaf ha]
    · simpa [entriesAt_leaf ha] using hord

end Regroup

/-! ## A leaf among its siblings -/

/-- The leaves of a level, in order and linked up. Any of them may be empty. -/
structure Leaves (O : KeyOrder K R) (s : PageFile ε τ) (level : List (Item Nat ε)) : Prop where
  leaf : ∀ p ∈ nodes level, ∃ es nx, s[p]? = some (.leaf es nx) ∧ LeafFits O es nx ∧
    es.length ≤ maxLeafKeys K
  inOrder : InOrder O (contents s level)
  chain : ∃ first, Chain s first (nodes level) invalidPageId

section Leaves
variable {parent q a b : Nat} {ls : List (Nat × ε)} {k : ε} {rs : List (ε × Nat)}

theorem Leaves.pair (hl : Leaves O s (before ++ .node a :: .sep k :: .node b :: after))
    (hn : Neighbours O s parent ls a k b rs) :
    ∃ nb, LeafPair O s parent ls a k b rs (entriesAt s a) (entriesAt s b) nb := by
  obtain ⟨ea, na, ha, hfa, hla⟩ := hl.leaf a (by simp)
  obtain ⟨eb, nb, hb, hfb, hlb⟩ := hl.leaf b (by simp)
  obtain ⟨first, hchain⟩ := hl.chain
  have hna : na = b := by
    simp only [nodes_append, nodes_node, nodes_sep] at hchain
    obtain ⟨-, -, -, es, nx, hpage, rfl, -⟩ := chain_append.mp hchain
    rw [ha] at hpage
    cases hpage
    rfl
  subst hna
  rw [entriesAt_leaf ha, entriesAt_leaf hb]
  have heq : contents s (before ++ .node a :: .sep k :: .node na :: after) =
      contents s before ++ ((ea.map .node ++ [.sep k]) ++ eb.map .node) ++ contents s after := by
    simp [entriesAt_leaf ha, entriesAt_leaf hb]
  have hord : InOrder O ((ea.map .node ++ [.sep k]) ++ eb.map .node) := by
    have := hl.inOrder
    rw [heq] at this
    exact this.sublist
      ((List.sublist_append_right _ _).trans (List.sublist_append_left _ (contents s after)))
  refine ⟨nb, hn, ha, hb, hfa, hfb, hla, hlb, ?_, fun x hx y hy => ?_⟩
  · simpa using Sorted.nodes hord
  · exact Sorted.nodes_lt_node hord (.inr ⟨_, _, rfl⟩) (by simpa using hy) x (by simpa using hx)

theorem Leaves.pair_right (hf : Family O s parent ls q ((k, b) :: rs))
    (hl : Leaves O s ((before ++ left ls) ++ .node q :: (right ((k, b) :: rs) ++ after))) :
    ∃ nb, LeafPair O s parent ls q k b rs (entriesAt s q) (entriesAt s b) nb :=
  hl.pair hf.neighbours

theorem Leaves.pair_left (hf : Family O s parent (ls ++ [(a, k)]) q rs)
    (hl : Leaves O s ((before ++ left (ls ++ [(a, k)])) ++ .node q :: after)) :
    ∃ nb, LeafPair O s parent ls a k q rs (entriesAt s a) (entriesAt s q) nb := by
  have heq : (before ++ left (ls ++ [(a, k)])) ++ .node q :: after =
      (before ++ left ls) ++ .node a :: .sep k :: .node q :: after := by
    simp
  rw [heq] at hl
  exact hl.pair hf.refocus.neighbours

theorem IsPair.sibling {ls₁ : List (Nat × ε)} {rs₁ : List (ε × Nat)}
    (hp : IsPair ls q rs ls₁ a k b rs₁) :
    a ∈ ls.map (·.1) ++ rs.map (·.2) ∨ b ∈ ls.map (·.1) ++ rs.map (·.2) := by
  obtain ⟨rfl, rfl, rfl⟩ | ⟨rfl, rfl, rfl⟩ := hp
  · exact .inr (by simp)
  · exact .inl (by simp)

/-- The right sibling of a leaf has entries to lend it. -/
def LendsRight (O : KeyOrder K R) (s : PageFile ε τ) (rs : List (ε × Nat)) (borrower : Nat) : Prop :=
  ∃ k b rs', rs = (k, b) :: rs' ∧ canLend K (leadingRun K ((entriesAt s b).map O.dec))
    (entriesAt s b).length borrower

/-- The left sibling of a leaf has entries to lend it. -/
def LendsLeft (O : KeyOrder K R) (s : PageFile ε τ) (ls : List (Nat × ε)) (borrower : Nat) : Prop :=
  ∃ ls' a k, ls = ls' ++ [(a, k)] ∧ canLend K (trailingRun K ((entriesAt s a).map O.dec))
    (entriesAt s a).length borrower

/-- Repairing a leaf with these entries overflows a page. -/
def Overflow (O : KeyOrder K R) (s : PageFile ε τ) (ls : List (Nat × ε)) (rs : List (ε × Nat))
    (es : List (ε × RID)) : Prop :=
  ¬LendsRight O s rs es.length ∧ ¬LendsLeft O s ls es.length ∧
    ∃ k b rs', rs = (k, b) :: rs' ∧ Overfull O (es ++ entriesAt s b)

theorem borrowRightLeaf_refused {entries : List (κ × RID)} {nx : Nat}
    (hl : Leaves O s (before ++ .node q :: (right rs ++ after)))
    (hno : ¬LendsRight O s rs entries.length) :
    borrowRightLeaf K parent q (ls.map (·.1) ++ q :: rs.map (·.2))
        ((ls.map fun x => O.val x.2) ++ rs.map fun x => O.val x.1) ls.length entries nx s =
      .ok false s := by
  cases rs with
  | nil => simp [borrowRightLeaf]
  | cons x rs =>
    obtain ⟨k, b⟩ := x
    obtain ⟨eb, nb, hb, hfb, -⟩ := hl.leaf b (by simp)
    have hright : (ls.map (·.1) ++ q :: ((k, b) :: rs).map (·.2))[ls.length + 1]? = some b :=
      pairChildren_right
    rw [borrowRightLeaf, hright]
    dsimp only
    rw [run_bind_ok (fetchPage_eq hb), readLeaf_eq hfb.stored, run_bind_ok (PageM.lift_ok _ _)]
    dsimp only
    rw [if_neg]
    · rfl
    · intro hlend
      refine hno ⟨k, b, rs, rfl, ?_⟩
      simpa [entriesAt_leaf hb] using hlend

theorem borrowLeftLeaf_refused {entries : List (κ × RID)} {nx : Nat}
    (hl : Leaves O s ((before ++ left ls) ++ .node q :: after))
    (hno : ¬LendsLeft O s ls entries.length) :
    borrowLeftLeaf K parent q (ls.map (·.1) ++ q :: rs.map (·.2))
        ((ls.map fun x => O.val x.2) ++ rs.map fun x => O.val x.1) ls.length entries nx s =
      .ok false s := by
  induction ls using List.reverseRecOn with
  | nil => simp [borrowLeftLeaf]
  | append_singleton ls x _ =>
    obtain ⟨a, k⟩ := x
    obtain ⟨ea, na, ha, hfa, -⟩ := hl.leaf a (by simp)
    rw [familyChildren_snoc, familyKeys_snoc, List.length_append, List.length_singleton,
      borrowLeftLeaf, if_neg (Nat.succ_ne_zero _), Nat.add_sub_cancel, pairChildren_left,
      run_bind_ok (PageM.lift_ok _ _), run_bind_ok (fetchPage_eq ha),
      readLeaf_eq hfa.stored, run_bind_ok (PageM.lift_ok _ _)]
    dsimp only
    rw [if_neg]
    · rfl
    · intro hlend
      refine hno ⟨ls, a, k, rfl, ?_⟩
      simpa [entriesAt_leaf ha] using hlend

/-- `_fixup_leaf` repairs a leaf that got too small with one of its neighbours. -/
theorem fixupLeaf_spec {es : List (ε × RID)} {nx : Nat} (hf : Family O s parent ls q rs)
    (hl : Leaves O s ((before ++ left ls) ++ .node q :: (right rs ++ after)))
    (hq : s[q]? = some (.leaf es nx)) (hsmall : es.length < minLeafKeys K)
    (hsib : ∀ x ∈ ls.map (·.1) ++ rs.map (·.2), entriesAt s x ≠ [])
    (hone : ls ≠ [] ∨ rs ≠ []) :
    (Overflow O s ls rs es → ∃ s', fixupLeaf K parent (ls.map (·.1) ++ q :: rs.map (·.2))
        ((ls.map fun x => O.val x.2) ++ rs.map fun x => O.val x.1) ls.length s =
          .error .structError s') ∧
    (¬Overflow O s ls rs es → ∃ s' ls₁ a k b rs₁ nb,
      fixupLeaf K parent (ls.map (·.1) ++ q :: rs.map (·.2))
        ((ls.map fun x => O.val x.2) ++ rs.map fun x => O.val x.1) ls.length s = .ok () s' ∧
      IsPair ls q rs ls₁ a k b rs₁ ∧
      LeafPair O s parent ls₁ a k b rs₁ (entriesAt s a) (entriesAt s b) nb ∧
      LeafRepaired O s s' parent ls₁ a b rs₁ (entriesAt s a) (entriesAt s b) nb) := by
  have hget : pyGet (ls.map (·.1) ++ q :: rs.map (·.2)) ls.length = .ok q := by
    simpa using pyGet_append (ls.map (·.1)) (rs.map (·.2)) q
  obtain ⟨es', nx', hq', hfq, -⟩ := hl.leaf q (by simp)
  obtain ⟨rfl, rfl⟩ : es = es' ∧ nx = nx' := by simpa [hq] using hq'
  rw [List.forall_mem_append] at hsib
  rw [fixupLeaf, hget, run_bind_ok (PageM.lift_ok _ _), run_bind_ok (fetchPage_eq hq),
    readLeaf_eq hfq.stored, run_bind_ok (PageM.lift_ok _ _)]
  dsimp only
  by_cases hR : LendsRight O s rs es.length
  · refine ⟨fun hover => absurd hR hover.1, fun _ => ?_⟩
    obtain ⟨k, b, rs, rfl, hlend⟩ := hR
    obtain ⟨nb, hp⟩ := Leaves.pair_right hf hl
    obtain ⟨hes, rfl⟩ : es = entriesAt s q ∧ nx = b := by simpa [hq] using hp.left
    rw [hes] at hlend ⊢
    obtain ⟨s', hrun, hrep⟩ := borrowRightLeaf_spec hp (hsib.2 nx (by simp)) hlend
    exact ⟨s', ls, q, k, nx, rs, nb, run_bind_ok hrun, .inl ⟨rfl, rfl, rfl⟩, hp, hrep⟩
  rw [run_bind_ok (borrowRightLeaf_refused hl (by simpa using hR))]
  simp only [Bool.false_eq_true, reduceIte]
  by_cases hL : LendsLeft O s ls es.length
  · refine ⟨fun hover => absurd hL hover.2.1, fun _ => ?_⟩
    obtain ⟨ls, a, k, rfl, hlend⟩ := hL
    obtain ⟨nb, hp⟩ := Leaves.pair_left hf hl
    obtain ⟨hes, rfl⟩ : es = entriesAt s q ∧ nx = nb := by simpa [hq] using hp.right
    rw [hes] at hlend ⊢
    obtain ⟨s', hrun, hrep⟩ := borrowLeftLeaf_spec hp (hsib.1 a (by simp)) hlend
    refine ⟨s', ls, a, k, q, rs, nx, ?_, .inr ⟨rfl, rfl, rfl⟩, hp, hrep⟩
    rw [familyChildren_snoc, familyKeys_snoc, List.length_append, List.length_singleton]
    exact run_bind_ok hrun
  rw [run_bind_ok (borrowLeftLeaf_refused (by simpa using hl) (by simpa using hL))]
  simp only [Bool.false_eq_true, reduceIte]
  cases rs with
  | cons x rs =>
    obtain ⟨k, b⟩ := x
    obtain ⟨nb, hp⟩ := Leaves.pair_right hf hl
    obtain ⟨hes, rfl⟩ : es = entriesAt s q ∧ nx = b := by simpa [hq] using hp.left
    have hright : (ls.map (·.1) ++ q :: ((k, nx) :: rs).map (·.2))[ls.length + 1]? = some nx :=
      pairChildren_right
    rw [hright]
    dsimp only
    rw [run_bind_ok (fetchPage_eq hp.right), readLeaf_eq hp.fits_right.stored,
      run_bind_ok (PageM.lift_ok _ _)]
    dsimp only
    rw [← List.map_append, hes]
    constructor
    · rintro ⟨-, -, k', b', rs', heq, hover⟩
      cases heq
      exact ⟨_, hp.overfull hover⟩
    · intro hno
      obtain ⟨s', hrun, hrep⟩ := combineLeaves_spec hp fun hover =>
        hno ⟨hes ▸ hR, hes ▸ hL, k, nx, rs, rfl, hover⟩
      exact ⟨s', ls, q, k, nx, rs, nb, hrun, .inl ⟨rfl, rfl, rfl⟩, hp, hrep⟩
  | nil =>
    obtain ⟨ls, ⟨a, k⟩, rfl⟩ : ∃ l x, ls = l ++ [x] :=
      ⟨ls.dropLast, ls.getLast (by simpa using hone), (List.dropLast_append_getLast _).symm⟩
    obtain ⟨nb, hp⟩ := Leaves.pair_left hf hl
    obtain ⟨hes, rfl⟩ : es = entriesAt s q ∧ nx = nb := by simpa [hq] using hp.right
    refine ⟨fun hover => by simp [Overflow] at hover, fun _ => ?_⟩
    obtain ⟨s', hrun, hrep⟩ := combineLeaves_spec hp (hp.not_overfull (hes ▸ hsmall))
    refine ⟨s', ls, a, k, q, [], nx, ?_, .inr ⟨rfl, rfl, rfl⟩, hp, hrep⟩
    have hnone : (pairChildren ls a q ([] : List (ε × Nat)))[ls.length + 1 + 1]? = none := by
      simp [pairChildren]
    rw [familyChildren_snoc, familyKeys_snoc, List.length_append, List.length_singleton, hnone]
    dsimp only
    rw [if_neg (Nat.succ_ne_zero _), Nat.add_sub_cancel, pairChildren_left,
      run_bind_ok (PageM.lift_ok _ _), run_bind_ok (fetchPage_eq hp.left),
      readLeaf_eq hp.fits_left.stored, run_bind_ok (PageM.lift_ok _ _)]
    dsimp only
    rw [← List.map_append, hes]
    exact hrun

theorem Overflow.congr {es : List (ε × RID)}
    (h : ∀ x ∈ ls.map (·.1) ++ rs.map (·.2), s'[x]? = s[x]?) :
    Overflow O s' ls rs es ↔ Overflow O s ls rs es := by
  rw [List.forall_mem_append] at h
  have hR : LendsRight O s' rs es.length ↔ LendsRight O s rs es.length := by
    refine exists_congr fun k => exists_congr fun b => exists_congr fun rs' =>
      and_congr_right fun hrs => ?_
    rw [entriesAt_congr (h.2 b (by simp [hrs]))]
  have hL : LendsLeft O s' ls es.length ↔ LendsLeft O s ls es.length := by
    refine exists_congr fun ls' => exists_congr fun a => exists_congr fun k =>
      and_congr_right fun hls => ?_
    rw [entriesAt_congr (h.1 a (by simp [hls]))]
  refine and_congr (not_congr hR) (and_congr (not_congr hL) ?_)
  refine exists_congr fun k => exists_congr fun b => exists_congr fun rs' =>
    and_congr_right fun hrs => ?_
  rw [entriesAt_congr (h.2 b (by simp [hrs]))]

/-- One step of the walk, at the leaf. -/
theorem fixupAfterDelete_leaf {es : List (ε × RID)} {nx : Nat} (hf : Family O s parent ls q rs)
    (hq : s[q]? = some (.leaf es nx)) (hfq : LeafFits O es nx) :
    fixupAfterDelete K root (q :: parent :: path) s =
      if minLeafKeys K ≤ es.length then .ok root s
      else (fixupLeaf K parent (ls.map (·.1) ++ q :: rs.map (·.2))
          ((ls.map fun x => O.val x.2) ++ rs.map fun x => O.val x.1) ls.length >>= fun _ =>
        fixupAfterDelete K root (parent :: path)) s := by
  have hcount : ((fun e => e.1.length) <$>
      PageM.lift (readLeaf K (.leaf es nx : Page ε τ)) : PageM ε τ Nat) s = .ok es.length s := by
    rw [readLeaf_eq hfq.stored]
    simp [Functor.map, EStateM.map, PageM.lift]
  conv_lhs => unfold fixupAfterDelete
  rw [run_bind_ok (fetchPage_eq hq)]
  simp only [isLeaf, reduceIte]
  rw [run_bind_ok hcount]
  split
  · rfl
  · rw [run_bind_ok (fetchPage_eq hf.page), readInternal_zip hf.fits.stored,
      run_bind_ok (PageM.lift_ok _ _)]
    simp only [hf.pyIndex]
    rw [run_bind_ok (PageM.lift_ok _ _)]

end Leaves

end Minirel.BPlusTree

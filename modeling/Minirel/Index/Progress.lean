-- SUMMARY: When an insertion into a tree returns, and what it leaves behind when it does not.
import Minirel.Index.Insert

/-!
# When an insertion returns

As long as the page ids fit their four bytes, the only way for an insertion to raise
is a leaf that is full of the key, and then nothing has been written yet.
-/

namespace Minirel.BPlusTree

open Row

variable {κ ε τ R : Type} [LinearOrder R] {K : KeyType κ ε} {O : KeyOrder K R}
  {s s' : PageFile ε τ} {height : Nat → Option Nat} {root h p : Nat} {path : List Nat}
  {before after level : List (Item Nat ε)}

/-! ## How far the file grows -/

theorem extends_insertIntoParent (root : Nat) (path : List Nat) (left : Nat) (k : κ) (right : Nat) :
    Extends (insertIntoParent K root path left k right : PageM ε τ Nat) := by
  induction path generalizing left k right with
  | nil => exact .bind .newPage fun _ => .bind (.putPage _ _) fun _ => .pure _
  | cons parent path ih =>
    refine .bind (.fetchPage _) fun _ => .bind (.lift _) fun _ => .bind (.lift _) fun _ => ?_
    dsimp only
    split
    · exact .bind (.putPage _ _) fun _ => .pure _
    · exact .bind (.lift _) fun _ => .bind .newPage fun _ => .bind (.putPage _ _) fun _ =>
        .bind (.putPage _ _) fun _ => ih _ _ _

/-- Every ancestor takes at most one page, and so does a new root. -/
theorem takes_insertIntoParent (root : Nat) (path : List Nat) (left : Nat) (k : κ) (right : Nat) :
    Takes (path.length + 1) (insertIntoParent K root path left k right : PageM ε τ Nat) := by
  induction path generalizing left k right with
  | nil => exact (Takes.newPage.bind fun _ => (Takes.putPage _ _).bind fun _ => .pure _)
  | cons parent path ih =>
    refine ((Takes.fetchPage _).bind fun _ => (Takes.lift _).bind fun _ => (Takes.lift _).bind
      (k := path.length + 2) fun _ => ?_).mono (by simp)
    dsimp only
    split
    · exact ((Takes.putPage _ _).bind fun _ => .pure _).mono (by omega)
    · exact ((Takes.lift _).bind fun _ => Takes.newPage.bind fun _ => (Takes.putPage _ _).bind
        fun _ => (Takes.putPage _ _).bind fun _ => ih _ _ _).mono (by omega)

/-! ## The ancestors of a leaf -/

/-- Page ids below the limit fit their four bytes. -/
theorem childFits_of_lt {x : Nat} (hx : x < s.length) (hs : s.length ≤ 2 ^ 32) :
    childFits x = true := by
  simp only [childFits, decide_eq_true_eq]
  omega

/-- Writes to a node and to a new page leave the ancestors of the node as they were. -/
theorem Focus.frame_cut (hf : Focus O s height root h path before p after)
    (hscope : ∀ x j, height x = some j → x < s.length) (new page : Page ε τ) :
    Focus O ((s ++ [new]).set p page) height root h path before p after := by
  refine hf.frame (fun x j hj hx => ?_) (fun _ _ hx => hx) (by simp)
  have hne : p ≠ x := by
    rintro rfl
    rw [hf.toLevel.height_eq p (by simp), Option.some.injEq] at hx
    omega
  rw [List.getElem?_set_ne hne, List.getElem?_append_left (hscope x j hx)]

theorem insertIntoParent_total {q : Nat} {k : ε}
    (hf : Focus O s height root h path before p after)
    (hscope : ∀ x j, height x = some j → x < s.length) (hq : q < s.length) (hk : O.Stored k)
    (hroom : ((insertIntoParent K root path p (O.val k) q).after s).length ≤ 2 ^ 32) :
    ∃ root' s', insertIntoParent K root path p (O.val k) q s = .ok root' s' := by
  have hs := (extends_insertIntoParent root path p (O.val k) q s).trans hroom
  induction path generalizing s height h p before after k q with
  | nil =>
    cases hf with
    | root hlevel =>
      have hroot := hlevel.lt_length root (by simp)
      exact ⟨_, _, insertIntoParent_nil_of_fits hk (childFits_of_lt hroot hs) (childFits_of_lt hq hs)⟩
  | cons parent path ih =>
    cases hf with
    | @down _ _ _ _ before after ls rs hup hnodes hpage hfits hlo hhi hlevel =>
    obtain ⟨-, hrun⟩ | ⟨-, r₁, upKey, c, r₂, hup', hrun⟩ :=
      insertIntoParent_cons_of_fits hpage hfits hk (childFits_of_lt hq hs) hlevel.notMem_left hhi
    · exact ⟨_, _, hrun⟩
    · rw [PageM.after_congr hrun] at hroom
      rw [hrun]
      exact ih (hup.frame_cut hscope _ _) (fun x j hx => by simpa using Nat.lt_succ_of_lt (hscope x j hx))
        (by simp) hup' hroom ((extends_insertIntoParent root path parent (O.val upKey) s.length _).trans hroom)

/-! ## The leaf -/

theorem extends_insertInLeaf (root : Nat) (path : List Nat) (leafId : Nat)
    (entries : List (κ × RID)) (nextLeaf : Nat) :
    Extends (insertInLeaf K root path leafId entries nextLeaf : PageM ε τ Nat) := by
  unfold insertInLeaf
  split
  · exact .bind (.putPage _ _) fun _ => .pure _
  · exact .bind (.lift _) fun _ => .bind .newPage fun _ => .bind (.putPage _ _) fun _ =>
      .bind (.putPage _ _) fun _ => .bind (.lift _) fun _ => extends_insertIntoParent _ _ _ _ _

theorem takes_insertInLeaf (root : Nat) (path : List Nat) (leafId : Nat)
    (entries : List (κ × RID)) (nextLeaf : Nat) :
    Takes (path.length + 2) (insertInLeaf K root path leafId entries nextLeaf : PageM ε τ Nat) := by
  unfold insertInLeaf
  split
  · exact ((Takes.putPage _ _).bind fun _ => .pure _).mono (by omega)
  · exact ((Takes.lift _).bind fun _ => Takes.newPage.bind fun _ => (Takes.putPage _ _).bind
      fun _ => (Takes.putPage _ _).bind fun _ => (Takes.lift _).bind
      fun _ => takes_insertIntoParent _ _ _ _ _).mono (by omega)

/-- A list too long for a leaf cannot be cut exactly when it repeats one key. -/
theorem splitPoint_total {es : List (ε × RID)} (hst : ∀ a ∈ es, O.Stored a.1)
    (hsorted : es.Pairwise fun a b => O.rk a.1 ≤ O.rk b.1) (hlen : 2 ≤ es.length) :
    ((∀ a ∈ es, ∀ b ∈ es, O.rk a.1 = O.rk b.1) ∧
      splitPointAvoidingDuplicates K ((es.map O.dec).map (·.1)) = .error (splitError K)) ∨
    ((∃ a ∈ es, ∃ b ∈ es, O.rk a.1 ≠ O.rk b.1) ∧
      ∃ i, splitPointAvoidingDuplicates K ((es.map O.dec).map (·.1)) = .ok i) := by
  obtain ⟨before, run, after, hm⟩ := exists_midRun hst hsorted hlen
  obtain ⟨x, hx⟩ : ∃ x, x ∈ run := by
    refine List.exists_mem_of_ne_nil run ?_
    rintro rfl
    have := hm.lt_mid
    have := hm.mid_le
    simp only [List.length_nil] at this
    omega
  rw [splitPoint_eq hm, hm.eq]
  by_cases hafter : after = []
  · by_cases hbefore : before = []
    · subst hafter hbefore
      simp only [List.nil_append, List.append_nil]
      exact .inl ⟨hm.equal, by simp⟩
    · obtain ⟨a, ha⟩ := List.exists_mem_of_ne_nil before hbefore
      refine .inr ⟨⟨a, by simp [ha], x, by simp [hx], (hm.below a ha x hx).ne⟩, before.length, ?_⟩
      simp [hafter, hbefore]
  · obtain ⟨a, ha⟩ := List.exists_mem_of_ne_nil after hafter
    refine .inr ⟨⟨x, by simp [hx], a, by simp [ha], (hm.above x hx a ha).ne⟩,
      before.length + run.length, ?_⟩
    simp [hafter]

/-- An insertion whose list is too long for the leaf goes on in the ancestors, whose pages are as
    they were. -/
theorem insertInLeaf_cut {nx : Nat} {l r : List (ε × RID)} {x : ε × RID}
    (hfits : LeafFits O (l ++ x :: r) nx) (hl : l.length ≤ maxLeafKeys K)
    (hr : (x :: r).length ≤ maxLeafKeys K) (hgt : maxLeafKeys K < (l ++ x :: r).length)
    (hsplit : splitPointAvoidingDuplicates K (((l ++ x :: r).map O.dec).map (·.1)) = .ok l.length)
    (hs : s.length < 2 ^ 32) :
    insertInLeaf K root path p ((l ++ x :: r).map O.dec) nx s =
      insertIntoParent K root path p (O.val x.1) s.length
        ((s ++ [Page.leaf (x :: r) nx]).set p (.leaf l s.length)) := by
  have hfits₁ : LeafFits O l s.length := hfits.of_subset (by simp) (by simpa [childFits] using hs)
  have hfits₂ : LeafFits O (x :: r) nx := hfits.of_subset (by simp) hfits.next
  have hwrite₁ : writeLeaf K s.length _ _ (s ++ [Page.zero]) = _ := writeLeaf_eq hfits₂ hr rfl _
  have hset : (s ++ [Page.zero]).set s.length (.leaf (x :: r) nx) = s ++ [.leaf (x :: r) nx] := by
    simp
  rw [hset] at hwrite₁
  have hwrite₂ : writeLeaf K p _ _ (s ++ [Page.leaf (x :: r) nx]) = _ := writeLeaf_eq hfits₁ hl rfl _
  have hget : pyGet ((x :: r).map O.dec) 0 = .ok (O.val x.1, x.2) := rfl
  rw [insertInLeaf, List.length_map, if_neg (not_le.mpr hgt), hsplit,
    run_bind_ok (PageM.lift_ok _ _), run_bind_ok (newPage_apply s), List.map_append,
    List.drop_left' (List.length_map _), List.take_left' (List.length_map _),
    run_bind_ok hwrite₁, run_bind_ok hwrite₂, hget, run_bind_ok (PageM.lift_ok _ _)]

/-- The new entry in its leaf: written, unless the leaf is full and repeats the key. -/
theorem insertInLeaf_total {es : List (ε × RID)} {nx : Nat}
    (hf : Focus O s height root 0 path before p after)
    (hscope : ∀ x j, height x = some j → x < s.length)
    (hfits : LeafFits O es nx) (hlen : es.length ≤ maxLeafKeys K + 1)
    (hsorted : es.Pairwise fun a b => O.rk a.1 ≤ O.rk b.1)
    (hroom : ((insertInLeaf K root path p (es.map O.dec) nx).after s).length ≤ 2 ^ 32) :
    (∃ root' s', insertInLeaf K root path p (es.map O.dec) nx s = .ok root' s' ∧
      (es.length ≤ maxLeafKeys K ∨ ∃ a ∈ es, ∃ b ∈ es, O.rk a.1 ≠ O.rk b.1)) ∨
    (insertInLeaf K root path p (es.map O.dec) nx s = .error (splitError K) s ∧
      es.length = maxLeafKeys K + 1 ∧ ∀ a ∈ es, ∀ b ∈ es, O.rk a.1 = O.rk b.1) := by
  by_cases hle : es.length ≤ maxLeafKeys K
  · refine .inl ⟨root, s.set p (.leaf es nx), ?_, .inl hle⟩
    rw [insertInLeaf, List.length_map, if_pos hle, run_bind_ok (writeLeaf_eq hfits hle rfl s)]
    rfl
  · have hmax : 4 ≤ maxLeafKeys K := le_max_left _ _
    obtain ⟨hequal, hsplit⟩ | ⟨hdiff, i, hsplit⟩ :=
      splitPoint_total hfits.stored hsorted (by omega)
    · refine .inr ⟨?_, by omega, hequal⟩
      rw [insertInLeaf, List.length_map, if_neg hle, hsplit]
      rfl
    · left
      obtain ⟨l', x, r', rfl, rfl, hne, hlt⟩ := splitPoint_ok hfits.stored hsorted (by omega) hsplit
      have hpos := List.length_pos_iff.mpr hne
      simp only [List.length_append, List.length_cons] at hlen hle
      have hplt := hf.toLevel.lt_length p (by simp)
      have hgrow : (s ++ [Page.zero]).length ≤
          ((insertInLeaf K root path p ((l' ++ x :: r').map O.dec) nx).after s).length := by
        rw [insertInLeaf, List.length_map, if_neg (by simpa using hle), hsplit,
          PageM.after_bind_ok (PageM.lift_ok _ _), PageM.after_bind_ok (newPage_apply s)]
        exact Extends.bind (.putPage _ _) (fun _ => .bind (.putPage _ _) fun _ =>
          .bind (.lift _) fun _ => extends_insertIntoParent _ _ _ _ _) _
      have hs : s.length < 2 ^ 32 := by
        rw [List.length_append, List.length_singleton] at hgrow
        omega
      have hrun : insertInLeaf K root path p ((l' ++ x :: r').map O.dec) nx s = _ :=
        insertInLeaf_cut hfits (by omega) (by simp; omega) (by simpa using hle) hsplit hs
      rw [PageM.after_congr hrun] at hroom
      obtain ⟨root', s', hrec⟩ := insertIntoParent_total (hf.frame_cut hscope _ _)
        (fun y j hy => by simpa using Nat.lt_succ_of_lt (hscope y j hy)) (by simp)
        (hfits.stored x (by simp)) hroom
      exact ⟨root', s', hrun.trans hrec, .inr hdiff⟩

/-! ## Insertion -/

/-- How many entries a tree has under a key. -/
def occurrences (O : KeyOrder K R) (s : PageFile ε τ) (level : List (Item Nat ε)) (k : ε) : Nat :=
  (entries s level).countP fun a => decide (O.rk a.1 = O.rk k)

/-- As long as page ids fit, an insertion returns exactly when the key has fewer entries
    than a leaf holds. One that raises has written nothing. -/
theorem Tree.insert_total {k : ε} {rid : RID} (ht : Tree O s height root level) (hk : O.Stored k)
    (hrid : ridFits rid)
    (hroom : ((insert K false root (O.val k) rid).after s).length ≤ 2 ^ 32) :
    (occurrences O s level k < maxLeafKeys K ∧
      ∃ root' s', insert K false root (O.val k) rid s = .ok root' s') ∨
    (occurrences O s level k = maxLeafKeys K ∧
      insert K false root (O.val k) rid s = .error (splitError K) s) := by
  obtain ⟨path, before, p, after, es, nx, hf⟩ := ht.find (O.comparable_val hk)
  obtain ⟨l₀, m, r, rfl, hl₀, hm, hr, -, hhi⟩ := hf.cut ht.inOrder (O.comparable_val hk)
  have hcount : occurrences O s level k = m.length := by
    have hzero : ∀ l : List (ε × RID), (∀ a ∈ l, O.rk a.1 ≠ O.rk k) →
        l.countP (fun a => decide (O.rk a.1 = O.rk k)) = 0 := fun l h =>
      List.countP_eq_zero.mpr (by simpa using h)
    have hall : m.countP (fun a => decide (O.rk a.1 = O.rk k)) = m.length :=
      List.countP_eq_length.mpr fun a ha => decide_eq_true (hm a ha)
    rw [occurrences, hf.entries_eq]
    simp only [List.countP_append, hzero _ fun a ha => (hf.entries_lt a ha).ne,
      hzero _ fun a ha => (hf.lt_entries a ha).ne', hzero _ fun a ha => (hl₀ a ha).ne,
      hzero _ fun a ha => (hr a ha).ne', hall, Nat.zero_add, Nat.add_zero]
  have hl : ∀ a ∈ l₀ ++ m, O.rk a.1 ≤ O.rk k := by
    rw [List.forall_mem_append]
    exact ⟨fun a ha => (hl₀ a ha).le, fun a ha => (hm a ha).le⟩
  have hsorted : ((l₀ ++ m) ++ (k, rid) :: r).Pairwise fun a b => O.rk a.1 ≤ O.rk b.1 :=
    hf.sorted_insert ht.inOrder hl hr rid
  have hentries : (l₀ ++ m).map O.dec ++ (O.val k, rid) :: r.map O.dec =
      ((l₀ ++ m) ++ (k, rid) :: r).map O.dec := by
    simp [KeyOrder.dec]
  have hrun : insert K false root (O.val k) rid s = _ := hf.insert_eq hhi rfl
  rw [hentries] at hrun
  rw [PageM.after_congr hrun] at hroom
  have hfits : LeafFits O ((l₀ ++ m) ++ (k, rid) :: r) nx := hf.fits.insert hk hrid
  have hlen := hf.length_le
  simp only [List.length_append] at hlen
  rw [hcount, hrun]
  obtain ⟨root', s', hok, hcase⟩ | ⟨herr, hfull, hequal⟩ :=
    insertInLeaf_total hf.focus ht.scope hfits (by simp; omega) hsorted hroom
  · refine .inl ⟨?_, root', s', hok⟩
    obtain hle | ⟨a, ha, b, hb, hab⟩ := hcase
    · simp only [List.length_append, List.length_cons] at hle
      omega
    · -- some entry of the leaf has another key
      by_contra hge
      have hl₀' : l₀ = [] := List.length_eq_zero_iff.mp (by omega)
      have hr' : r = [] := List.length_eq_zero_iff.mp (by omega)
      subst hl₀' hr'
      have hk' : ∀ a ∈ ([] ++ m) ++ [(k, rid)], O.rk a.1 = O.rk k := by
        simp only [List.nil_append, List.forall_mem_append, List.forall_mem_singleton, and_true]
        exact hm
      exact hab ((hk' a ha).trans (hk' b hb).symm)
  · refine .inr ⟨?_, herr⟩
    have hk' : ∀ a ∈ (l₀ ++ m) ++ (k, rid) :: r, O.rk a.1 = O.rk k :=
      fun a ha => hequal a ha (k, rid) (by simp)
    have hl₀' : l₀ = [] := List.eq_nil_iff_forall_not_mem.mpr fun a ha =>
      (hl₀ a ha).ne (hk' a (by simp [ha]))
    have hr' : r = [] := List.eq_nil_iff_forall_not_mem.mpr fun a ha =>
      (hr a ha).ne' (hk' a (by simp [ha]))
    subst hl₀' hr'
    simpa using hfull

end Minirel.BPlusTree

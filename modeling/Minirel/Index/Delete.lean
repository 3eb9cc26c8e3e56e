-- SUMMARY: Deletion takes out one entry and leaves a tree in order, unless a redistribution overflows.
import Minirel.Index.Leaves
import Minirel.Index.Search

/-!
# Deletion
-/

namespace Minirel.BPlusTree

open Row

variable {κ ε τ R : Type} [LinearOrder R] {K : KeyType κ ε} {O : KeyOrder K R}
  {s s' : PageFile ε τ} {height : Nat → Option Nat} {root h p : Nat} {path : List Nat}
  {before after level : List (Item Nat ε)}

/-! ## Removing an entry -/

section Remove
variable {q parent nx : Nat} {ls : List (Nat × ε)} {rs : List (ε × Nat)} {es' : List (ε × RID)}

theorem Tree.inOrder_set {es : List (ε × RID)}
    (ht : Tree O s height root (before ++ .node q :: after)) (hq : s[q]? = some (.leaf es nx))
    (hsub : es'.Sublist es) :
    InOrder O (contents s before ++ es'.map .node ++ contents s after) := by
  have hord := ht.inOrder
  rw [contents_append, contents_node, entriesAt_leaf hq, ← List.append_assoc] at hord
  refine hord.sublist (List.Sublist.append_right (List.Sublist.append_left ?_ _) _)
  exact hsub.map _

/-- The leaves of a tree, one of which has lost entries. -/
theorem Tree.leaves_set {es : List (ε × RID)} (ht : Tree O s height root (before ++ .node q :: after))
    (hq : s[q]? = some (.leaf es nx)) (hsub : es'.Sublist es) :
    Leaves O (s.set q (.leaf es' nx)) (before ++ .node q :: after) := by
  have hlevel := ht.tower.toLevel
  have hself : (s.set q (.leaf es' nx))[q]? = some (.leaf es' nx) :=
    List.getElem?_set_self (hlevel.lt_length q (by simp))
  have hsame : ∀ x ∈ nodes (before ++ after), (s.set q (.leaf es' nx))[x]? = s[x]? := fun x hx =>
    hlevel.getElem?_set hx _
  refine ⟨fun x hx => ?_, ?_, ?_⟩
  · obtain rfl | hx := mem_nodes_focus.mp hx
    · obtain ⟨es₀, nx₀, hq₀, hfits, hlen, -⟩ := ht.leaf x (by simp)
      obtain ⟨rfl, rfl⟩ : es = es₀ ∧ nx = nx₀ := by simpa [hq] using hq₀
      exact ⟨es', nx, hself, hfits.of_subset hsub.subset hfits.next, hsub.length_le.trans hlen⟩
    · obtain ⟨es₀, nx₀, hx₀, hfits, hlen, -⟩ := ht.leaf x (mem_nodes_focus.mpr (.inr hx))
      exact ⟨es₀, nx₀, (hsame x hx).trans hx₀, hfits, hlen⟩
  · have hbefore : contents (s.set q (.leaf es' nx)) before = contents s before :=
      contents_congr fun x hx => hsame x (by simp [hx])
    have hafter : contents (s.set q (.leaf es' nx)) after = contents s after :=
      contents_congr fun x hx => hsame x (by simp [hx])
    rw [contents_append, contents_node, entriesAt_leaf hself, hbefore, hafter, ← List.append_assoc]
    exact ht.inOrder_set hq hsub
  · obtain ⟨first, hc⟩ := ht.chain
    refine ⟨first, ?_⟩
    have heq : nodes (before ++ .node q :: after) = nodes before ++ [q] ++ nodes after := by simp
    rw [heq] at hc ⊢
    refine hc.window (by simpa using hsame) ?_
    rintro a b ⟨rfl, es₀, nx₀, hpage, rfl⟩
    rw [hq] at hpage
    cases hpage
    exact ⟨rfl, _, _, hself, rfl⟩

/-- The siblings of a leaf that has lost entries are not empty. -/
theorem Tree.siblings_ne_nil {es : List (ε × RID)}
    (ht : Tree O s height root (before ++ .node q :: after)) {x : Nat}
    (hx : x ∈ nodes (before ++ after)) :
    entriesAt (s.set q (.leaf es nx)) x ≠ [] := by
  rw [entriesAt_congr (ht.tower.toLevel.getElem?_set hx _)]
  obtain ⟨es₀, nx₀, hx₀, -, -, hempty⟩ := ht.leaf x (mem_nodes_focus.mpr (.inr hx))
  rw [entriesAt_leaf hx₀]
  intro hes
  have hone := congrArg (fun l => (nodes l).length) (hempty hes)
  have hpos := List.length_pos_of_mem hx
  simp only [nodes_append, List.length_append, nodes_node, nodes_nil, List.length_cons,
    List.length_nil] at hone hpos
  omega

/-- What a deletion has to show for a leaf that lost entries. -/
def Removed (O : KeyOrder K R) (s : PageFile ε τ) (height : Nat → Option Nat)
    (l : List (ε × RID)) (s' : PageFile ε τ) (root' : Nat) : Prop :=
  Grows (fun _ => True) s height s' height ∧
    ∃ level', Tree O s' height root' level' ∧ entries s' level' = l

/-- A leaf that is the whole tree. -/
theorem Tree.remove_root {es : List (ε × RID)} (ht : Tree O s height root [.node root])
    (hq : s[root]? = some (.leaf es nx)) (hsub : es'.Sublist es) :
    fixupAfterDelete K root [root] (s.set root (.leaf es' nx)) =
        .ok root (s.set root (.leaf es' nx)) ∧
      Removed O s height es' (s.set root (.leaf es' nx)) root := by
  have hlevel := ht.tower.toLevel
  obtain ⟨es₀, nx₀, hq₀, hfits, hlen, -⟩ := ht.leaf root (by simp)
  obtain ⟨rfl, rfl⟩ : es = es₀ ∧ nx = nx₀ := by simpa [hq] using hq₀
  have hself : (s.set root (.leaf es' nx))[root]? = some (.leaf es' nx) :=
    List.getElem?_set_self (hlevel.lt_length root (by simp))
  refine ⟨?_, .set (hlevel.height_eq root (by simp)) trivial _, [.node root], ?_⟩
  · simp only [fixupAfterDelete, maybeShrinkRoot]
    rw [run_bind_ok (fetchPage_eq hself)]
    rfl
  · have ht' : Tree O s height root ([] ++ .node root :: []) := ht
    simpa [entries] using ht'.set_leaf (.root hlevel) hq (hfits.of_subset hsub.subset hfits.next)
      (hsub.length_le.trans hlen) (by simp) (ht'.inOrder_set hq hsub)

/-- The part of the tree above a leaf that has lost entries. -/
structure Above (O : KeyOrder K R) (s : PageFile ε τ) (height : Nat → Option Nat) (root : Nat)
    (path : List Nat) (before : List (Item Nat ε)) (parent : Nat) (after : List (Item Nat ε))
    (ls : List (Nat × ε)) (q : Nat) (rs : List (ε × Nat)) : Prop where
  focus : Focus O s height root 1 path before parent after
  siblings : ∀ x ∈ nodes (before ++ after), IsInternal O s (minInternalKeys K) x
  page : s[parent]? = some (.internal (zipFirst ls q) (zipRest ls q rs))
  fits : InternalFits O (zipFirst ls q) (zipRest ls q rs)
  lo : minKeysOf K root parent ≤ ls.length + rs.length
  hi : ls.length + rs.length ≤ maxInternalKeys K
  level : Level s height 0
    ((expand (rowAt s) before ++ left ls) ++ .node q :: (right rs ++ expand (rowAt s) after))

theorem Above.toFocus (ha : Above O s height root path before parent after ls q rs) :
    Focus O s height root 0 (parent :: path) (expand (rowAt s) before ++ left ls) q
      (right rs ++ expand (rowAt s) after) :=
  .down ha.focus ha.siblings ha.page ha.fits ha.lo ha.hi ha.level

/-- Writing a leaf changes nothing above it. -/
theorem Above.set (ha : Above O s height root path before parent after ls q rs) (page : Page ε τ) :
    Above O (s.set q page) height root path before parent after ls q rs ∧
      expand (rowAt (s.set q page)) before = expand (rowAt s) before ∧
      expand (rowAt (s.set q page)) after = expand (rowAt s) after := by
  have hq := ha.level.height_eq q (by simp)
  have hsame : ∀ x j, 0 < j → height x = some j → (s.set q page)[x]? = s[x]? := by
    intro x j hj hx
    refine List.getElem?_set_ne ?_
    rintro rfl
    rw [hq, Option.some.injEq] at hx
    omega
  have hsib : ∀ x ∈ nodes (before ++ .node parent :: after), (s.set q page)[x]? = s[x]? :=
    fun x hx => hsame x 1 Nat.one_pos (ha.focus.toLevel.height_eq x hx)
  have hbefore : expand (rowAt (s.set q page)) before = expand (rowAt s) before :=
    expand_congr fun x hx => rowAt_congr (hsib x (by simp [hx]))
  have hafter : expand (rowAt (s.set q page)) after = expand (rowAt s) after :=
    expand_congr fun x hx => rowAt_congr (hsib x (by simp [hx]))
  refine ⟨⟨?_, fun x hx => ?_, ?_, ha.fits, ha.lo, ha.hi, ?_⟩, hbefore, hafter⟩
  · exact ha.focus.frame (fun x j hj hx => hsame x j (by omega) hx) (fun _ _ hx => hx) (by simp)
  · exact (ha.siblings x hx).congr (hsib x (mem_nodes_focus.mpr (.inr hx)))
  · rw [hsib parent (by simp), ha.page]
  · rw [hbefore, hafter]
    exact ha.level.frame (fun _ _ hx => hx) (by simp)

theorem Above.family (ha : Above O s height root path before parent after ls q rs) :
    Family O s parent ls q rs := .of_focus ha.focus ha.page ha.fits ha.hi ha.level

theorem Above.one (ha : Above O s height root path before parent after ls q rs) :
    ls ≠ [] ∨ rs ≠ [] := by
  have := one_le_minKeysOf K root parent
  have hlo := ha.lo
  by_contra hno
  push Not at hno
  simp [hno.1, hno.2] at hlo
  omega

/-- The walk from a leaf that has lost entries, where the leaf needs no repair. -/
theorem Tree.remove_large {es : List (ε × RID)}
    (ht : Tree O s height root ((expand (rowAt s) before ++ left ls) ++
      .node q :: (right rs ++ expand (rowAt s) after)))
    (ha : Above O s height root path before parent after ls q rs)
    (hq : s[q]? = some (.leaf es nx)) (hsub : es'.Sublist es) (hlarge : minLeafKeys K ≤ es'.length) :
    fixupAfterDelete K root (q :: parent :: path) (s.set q (.leaf es' nx)) =
        .ok root (s.set q (.leaf es' nx)) ∧
      Removed O s height (entries s (expand (rowAt s) before ++ left ls) ++ es' ++
        entries s (right rs ++ expand (rowAt s) after)) (s.set q (.leaf es' nx)) root := by
  have hlevel := ht.tower.toLevel
  obtain ⟨es₀, nx₀, hq₀, hfits, hlen, -⟩ := ht.leaf q (by simp)
  obtain ⟨rfl, rfl⟩ : es = es₀ ∧ nx = nx₀ := by simpa [hq] using hq₀
  have hfits' := hfits.of_subset hsub.subset hfits.next
  have hself : (s.set q (.leaf es' nx))[q]? = some (.leaf es' nx) :=
    List.getElem?_set_self (hlevel.lt_length q (by simp))
  have hne : es' ≠ [] := by
    have : 1 ≤ minLeafKeys K := le_max_left _ _
    rintro rfl
    simp at hlarge
    omega
  refine ⟨?_, .set (hlevel.height_eq q (by simp)) trivial _, _,
    ht.set_leaf ha.toFocus hq hfits' (hsub.length_le.trans hlen) (fun h => absurd h hne)
      (ht.inOrder_set hq hsub)⟩
  rw [fixupAfterDelete_leaf (ha.set _).1.family hself hfits', if_pos hlarge]

/-- Two neighbouring leaves regrouped, and the walk up from them. -/
theorem Tree.regroup {s₁ s₂ s₃ : PageFile ε τ} {a b nb root' : Nat} {k : ε}
    {win : List (Item Nat ε)} (ht : Tree O s height root (before ++ [.node a, .sep k, .node b] ++ after))
    (hg₁ : Grows (fun _ => True) s height s₁ height)
    (hsame : ∀ x ∈ nodes (before ++ after), s₁[x]? = s[x]?)
    (hl : Leaves O s₁ (before ++ .node a :: .sep k :: .node b :: after))
    (hnext : ∀ x y, Chain s x [a, b] y → x = a ∧ y = nb)
    (hw : Rewritten O s₁ s₂ parent ls a b rs win)
    (hreg : Regrouped O s₂ a nb (entriesAt s₁ a ++ entriesAt s₁ b) win)
    (hparent : height parent = some 1) (hg : Grows (0 < ·) s₂ height s₃ height)
    (htower : Tower O s₃ height root' 0 (before ++ win ++ after)) :
    Removed O s height (entries s₁ (before ++ .node a :: .sep k :: .node b :: after)) s₃ root' := by
  have heq : before ++ [.node a, .sep k, .node b] ++ after =
      before ++ .node a :: .sep k :: .node b :: after := by simp
  have hlevel := ht.tower.toLevel
  rw [heq] at hlevel
  have hha := hlevel.height_eq a (by simp)
  have hhb := hlevel.height_eq b (by simp)
  have hleaf₃ : ∀ x, height x = some 0 → s₃[x]? = s₂[x]? := fun x hx => by
    refine hg.pages x ?_ fun j hj => ?_
    · rw [hw.length_eq]
      exact (ht.scope x 0 hx).trans_le hg₁.length_le
    · rw [hx, Option.some.injEq] at hj
      omega
  have hwin : ∀ x ∈ nodes win, height x = some 0 := by
    intro x hx
    have := hw.nodes_sublist.subset hx
    simp only [List.mem_cons, List.not_mem_nil, or_false] at this
    obtain rfl | rfl := this
    · exact hha
    · exact hhb
  have hreg₃ := hreg.congr fun x hx => hleaf₃ x (hwin x hx)
  have hrest : ∀ x ∈ nodes (before ++ after), s₃[x]? = s[x]? := by
    intro x hx
    have hx₀ : height x = some 0 := hlevel.height_eq x (by
      simp only [nodes_append, nodes_node, nodes_sep, List.mem_append, List.mem_cons] at hx ⊢
      tauto)
    obtain ⟨hxa, hxb⟩ := hlevel.ne_pair hx
    rw [hleaf₃ x hx₀, hw.same x ?_ hxa hxb, hsame x hx]
    rintro rfl
    rw [hparent] at hx₀
    simp at hx₀
  have hcongr : ∀ l, (∀ x ∈ nodes l, x ∈ nodes (before ++ after)) → contents s₁ l = contents s l :=
    fun l hl' => contents_congr fun x hx => hsame x (hl' x hx)
  have hbefore := hcongr before (by simp +contextual)
  have hafter := hcongr after (by simp +contextual)
  have hcontents : contents s₁ (before ++ .node a :: .sep k :: .node b :: after) =
      contents s before ++ ((entriesAt s₁ a).map .node ++ .sep k :: (entriesAt s₁ b).map .node) ++
        contents s after := by
    simp [hbefore, hafter]
  obtain ⟨htree, hent⟩ := ht.window (hg₁.trans ((hw.grows hparent hha hhb trivial trivial).trans hg
      fun _ _ => trivial) fun _ _ => trivial) htower hrest (by simp)
    (fun x hx => by
      obtain ⟨es, nx, hpage, hfits, hlen, hne⟩ := hreg₃.leaf x hx
      exact ⟨es, nx, hpage, hfits, hlen, fun h => absurd h hne⟩)
    (hreg₃.inOrder _ _ (by
      have hord := hl.inOrder
      rw [hcontents] at hord
      refine hord.sublist (List.Sublist.append_right (List.Sublist.append_left ?_ _) _)
      rw [List.map_append]
      exact List.Sublist.append_left (List.sublist_cons_self _ _) _))
    (fun x y hc => by
      obtain ⟨rfl, rfl⟩ := hnext x y (by simpa using hc)
      exact hreg₃.chain)
  refine ⟨hg₁.trans ((hw.grows hparent hha hhb trivial trivial).trans hg
      fun _ _ => trivial) fun _ _ => trivial, _, htree, ?_⟩
  rw [hent, hreg₃.entries_eq, entries, entries, entries, hcontents]
  simp

theorem Tree.entries_set
    (ht : Tree O s height root (before ++ .node q :: after)) (es : List (ε × RID)) (nx : Nat) :
    entries (s.set q (.leaf es nx)) (before ++ .node q :: after) =
      entries s before ++ es ++ entries s after := by
  have hlevel := ht.tower.toLevel
  have hself : (s.set q (.leaf es nx))[q]? = some (.leaf es nx) :=
    List.getElem?_set_self (hlevel.lt_length q (by simp))
  have hcongr : ∀ l, (∀ x ∈ nodes l, x ∈ nodes (before ++ after)) →
      contents (s.set q (.leaf es nx)) l = contents s l :=
    fun l hl => contents_congr fun x hx => hlevel.getElem?_set (hl x hx) _
  rw [entries, contents_append, contents_node, entriesAt_leaf hself,
    hcongr before (by simp +contextual), hcongr after (by simp +contextual)]
  simp [entries]

/-- The walk from a leaf that has lost entries, where the leaf has to be repaired. -/
theorem Tree.remove_small {es : List (ε × RID)}
    (ht : Tree O s height root ((expand (rowAt s) before ++ left ls) ++
      .node q :: (right rs ++ expand (rowAt s) after)))
    (ha : Above O s height root path before parent after ls q rs)
    (hq : s[q]? = some (.leaf es nx)) (hsub : es'.Sublist es) (hsmall : es'.length < minLeafKeys K) :
    (¬Overflow O s ls rs es' → ∃ root' s',
      fixupAfterDelete K root (q :: parent :: path) (s.set q (.leaf es' nx)) = .ok root' s' ∧
        Removed O s height (entries s (expand (rowAt s) before ++ left ls) ++ es' ++
          entries s (right rs ++ expand (rowAt s) after)) s' root') ∧
    (Overflow O s ls rs es' → ∃ s',
      fixupAfterDelete K root (q :: parent :: path) (s.set q (.leaf es' nx)) =
        .error .structError s') := by
  have hlevel := ht.tower.toLevel
  have hself : (s.set q (.leaf es' nx))[q]? = some (.leaf es' nx) :=
    List.getElem?_set_self (hlevel.lt_length q (by simp))
  have hsame : ∀ x, x ≠ q → (s.set q (.leaf es' nx))[x]? = s[x]? := fun x hx =>
    List.getElem?_set_ne hx.symm
  obtain ⟨ha₁, hbefore, hafter⟩ := ha.set (.leaf es' nx)
  have hl := ht.leaves_set hq hsub
  have hmem : ∀ x ∈ ls.map (·.1) ++ rs.map (·.2), x ∈ nodes
      ((expand (rowAt s) before ++ left ls) ++ (right rs ++ expand (rowAt s) after)) := by
    intro x hx
    simp only [nodes_append, nodes_left, nodes_right, List.mem_append] at hx ⊢
    tauto
  have hsib : ∀ x ∈ ls.map (·.1) ++ rs.map (·.2), entriesAt (s.set q (.leaf es' nx)) x ≠ [] :=
    fun x hx => ht.siblings_ne_nil (hmem x hx)
  have hover : Overflow O (s.set q (.leaf es' nx)) ls rs es' ↔ Overflow O s ls rs es' :=
    Overflow.congr fun x hx => hlevel.getElem?_set (hmem x hx) _
  have hg₁ : Grows (fun _ => True) s height (s.set q (.leaf es' nx)) height :=
    .set (hlevel.height_eq q (by simp)) trivial _
  have hent := ht.entries_set es' nx
  have hscope : ∀ x j, height x = some j → x < (s.set q (.leaf es' nx)).length := fun _ _ hx =>
    hg₁.scope ht.scope hx
  rw [← hent, ← hover]
  generalize s.set q (.leaf es' nx) = s₁ at *
  obtain ⟨es₁, nx₁, hq₁, hfits, -⟩ := hl.leaf q (by simp)
  obtain ⟨rfl, rfl⟩ : es' = es₁ ∧ nx = nx₁ := by simpa [hself] using hq₁
  obtain ⟨hfail, hok⟩ := fixupLeaf_spec ha₁.family hl hself hsmall hsib ha.one
  rw [fixupAfterDelete_leaf ha₁.family hself hfits, if_neg (by omega)]
  refine ⟨fun hno => ?_, fun hover => ?_⟩
  · obtain ⟨s₂, ls₁, a, k, b, rs₁, nb, hrun₁, hpair, hp, hrep⟩ := hok hno
    have hne : entriesAt s₁ a ++ entriesAt s₁ b ≠ [] := by
      rw [Ne, List.append_eq_nil_iff, not_and_or]
      exact hpair.sibling.imp (hsib a) (hsib b)
    obtain ⟨win, hw, hreg⟩ := hp.regrouped hrep hne
    have hold : (expand (rowAt s) before ++ left ls) ++
        .node q :: (right rs ++ expand (rowAt s) after) = expand (rowAt s) before ++
          (left ls₁ ++ .node a :: .sep k :: .node b :: right rs₁) ++ expand (rowAt s) after := by
      rw [← hpair.row_eq]
      simp
    have hlevel₁ := ha₁.level
    rw [hbefore, hafter, hold] at hlevel₁
    obtain ⟨hloose, heq⟩ := hw.loose ha₁.focus ha₁.siblings (by
      have := hpair.length_eq
      have := ha.lo
      omega) (by rw [hbefore, hafter]; exact hlevel₁)
    obtain ⟨root', s₃, hrun, hg, htower⟩ := hloose.fixupAfterDelete (by rwa [hw.length_eq])
    refine ⟨root', s₃, (run_bind_ok hrun₁).trans hrun, ?_⟩
    rw [hbefore, hafter] at heq
    have hold' : (expand (rowAt s) before ++ left ls) ++
        .node q :: (right rs ++ expand (rowAt s) after) =
        (expand (rowAt s) before ++ left ls₁) ++
          .node a :: .sep k :: .node b :: (right rs₁ ++ expand (rowAt s) after) := by
      rw [hold]
      simp
    rw [hold'] at hl hlevel ⊢
    have ht' : Tree O s height root ((expand (rowAt s) before ++ left ls₁) ++
        [.node a, .sep k, .node b] ++ (right rs₁ ++ expand (rowAt s) after)) := by
      simpa [hold'] using ht
    refine ht'.regroup hg₁ (fun x hx => hsame x ?_) hl ?_ hw hreg
      (ha.focus.toLevel.height_eq parent (by simp)) hg ?_
    · obtain ⟨hxa, hxb⟩ := hlevel.ne_pair hx
      obtain rfl | rfl := hpair.eq_or
      · exact hxa
      · exact hxb
    · rintro x y ⟨rfl, -, -, -, -, eb, ny, hb, rfl⟩
      refine ⟨rfl, ?_⟩
      have hb₁ := hp.right
      by_cases hbq : b = q
      · subst hbq
        rw [hself] at hb₁
        rw [hq] at hb
        cases hb₁
        cases hb
        rfl
      · rw [hsame b hbq, hb] at hb₁
        cases hb₁
        rfl
    · rw [heq] at htower
      simpa using htower
  · obtain ⟨s', hrun⟩ := hfail hover
    exact ⟨s', run_bind_error hrun⟩

end Remove

/-! ## Finding the entry -/

/-- The entries that `delete` looks for. -/
def hits (O : KeyOrder K R) (x : κ) (rid : RID) (a : ε × RID) : Bool :=
  O.rk a.1 = O.rank x ∧ a.2 = rid

section Target
variable {x : κ} {rid : RID} {es : List (ε × RID)} {nx : Nat}

theorem Found.not_hits_before (hf : Found O s height root level x path before p after es nx) :
    ∀ a ∈ entries s before, ¬hits O x rid a := by
  intro a ha hhit
  simp only [hits, decide_eq_true_eq] at hhit
  exact (hf.entries_lt a ha).ne hhit.1

theorem Found.not_hits_after (hf : Found O s height root level x path before p after es nx) :
    ∀ a ∈ entries s after, ¬hits O x rid a := by
  intro a ha hhit
  simp only [hits, decide_eq_true_eq] at hhit
  exact (hf.lt_entries a ha).ne' hhit.1

/-- The loop of `delete` over the entries with the key finds the first one. -/
theorem findTarget_eq {l m r : List (ε × RID)} (hl : ∀ a ∈ l, O.rk a.1 < O.rank x)
    (hm : ∀ a ∈ m, O.rk a.1 = O.rank x) (hr : ∀ a ∈ r, O.rank x < O.rk a.1) :
    findTarget ((l ++ m ++ r).map O.dec) l.length (l ++ m).length rid =
      (l ++ m ++ r).findIdx? (hits O x rid) := by
  have hmid : (((l ++ m ++ r).map O.dec).take (l ++ m).length).drop l.length = m.map O.dec := by
    simp [List.take_append]
  have hl' : l.findIdx? (hits O x rid) = none := List.findIdx?_eq_none_iff.mpr fun a ha => by
    simp [hits, (hl a ha).ne]
  have hr' : r.findIdx? (hits O x rid) = none := List.findIdx?_eq_none_iff.mpr fun a ha => by
    simp [hits, (hr a ha).ne']
  have hm' : m.findIdx? (hits O x rid) = (m.map O.dec).findIdx? (·.2 = rid) := by
    clear hmid
    induction m with
    | nil => rfl
    | cons a m ih =>
      rw [List.forall_mem_cons] at hm
      rw [List.map_cons, List.findIdx?_cons, List.findIdx?_cons, ih hm.2]
      by_cases ha : a.2 = rid <;> simp [hits, hm.1, ha, KeyOrder.dec]
  rw [findTarget, hmid, List.findIdx?_append, List.findIdx?_append, hl', hr', hm']
  simp [Nat.add_comm]

/-- `delete` up to the walk from the leaf. -/
theorem Found.delete_eq (hf : Found O s height root level x path before p after es nx)
    (hord : InOrder O (contents s level)) (hx : O.Comparable x) :
    delete K root x rid s =
      if ∃ a ∈ es, hits O x rid a then
        (fixupAfterDelete K root (p :: path) >>= fun root' => pure (true, root'))
          (s.set p (.leaf (es.eraseP (hits O x rid)) nx))
      else .ok (false, root) s := by
  obtain ⟨l, m, r, rfl, hl, hm, hr, hlo, hhi⟩ := hf.cut hord hx
  have herase : (l ++ m ++ r).eraseP (hits O x rid) = _ := List.eraseP_eq_eraseIdx
  rw [delete, run_bind_ok hf.run, List.reverse_cons, List.getLastD_concat,
    run_bind_ok (fetchPage_eq hf.page), hf.readLeaf, run_bind_ok (PageM.lift_ok _ _)]
  dsimp only
  rw [hlo, run_bind_ok (PageM.lift_ok _ _), hhi, run_bind_ok (PageM.lift_ok _ _),
    findTarget_eq hl hm hr]
  cases hfind : (l ++ m ++ r).findIdx? (hits O x rid) with
  | none =>
    rw [List.findIdx?_eq_none_iff] at hfind
    rw [if_neg]
    · rfl
    · rintro ⟨a, ha, hhit⟩
      simp [hfind a ha] at hhit
  | some i =>
    rw [hfind] at herase
    dsimp only at herase ⊢
    have hsub : (l ++ m ++ r).eraseP (hits O x rid) ⊆ l ++ m ++ r := List.eraseP_subset
    have hlen : ((l ++ m ++ r).eraseP (hits O x rid)).length ≤ (l ++ m ++ r).length :=
      List.length_eraseP_le
    have hwrite : writeLeaf K p (((l ++ m ++ r).map O.dec).eraseIdx i) nx s =
        .ok () (s.set p (.leaf ((l ++ m ++ r).eraseP (hits O x rid)) nx)) :=
      writeLeaf_eq (hf.fits.of_subset hsub hf.fits.next) (hlen.trans hf.length_le)
        (by rw [herase, List.eraseIdx_map]) s
    rw [run_bind_ok hwrite, if_pos]
    · simp
    · obtain ⟨hi, hhit, -⟩ := List.findIdx?_eq_some_iff_getElem.mp hfind
      exact ⟨_, List.getElem_mem hi, hhit⟩

theorem Found.eraseP_eq (hf : Found O s height root level x path before p after es nx)
    (hhit : ∃ a ∈ es, hits O x rid a) :
    (entries s level).eraseP (hits O x rid) =
      entries s before ++ es.eraseP (hits O x rid) ++ entries s after := by
  obtain ⟨a, ha, hhit⟩ := hhit
  rw [hf.entries_eq, List.append_assoc, List.eraseP_append_right _ hf.not_hits_before,
    List.eraseP_append_left hhit _ ha, ← List.append_assoc]

theorem Found.exists_hits (hf : Found O s height root level x path before p after es nx) :
    (∃ a ∈ entries s level, hits O x rid a) ↔ ∃ a ∈ es, hits O x rid a := by
  rw [hf.entries_eq]
  simp only [List.mem_append]
  constructor
  · rintro ⟨a, (ha | ha) | ha, hhit⟩
    · exact absurd hhit (hf.not_hits_before a ha)
    · exact ⟨a, ha, hhit⟩
    · exact absurd hhit (hf.not_hits_after a ha)
  · rintro ⟨a, ha, hhit⟩
    exact ⟨a, .inl (.inr ha), hhit⟩

end Target

/-! ## Where a deletion overflows -/

/-- `c` is a child of the internal node on page `q`. -/
def Child (s : PageFile ε τ) (q c : Nat) : Prop :=
  ∃ child rest, s[q]? = some (.internal child rest) ∧ c ∈ child :: rest.map (·.2)

/-- A page of the tree with this root. -/
def Under (s : PageFile ε τ) (root p : Nat) : Prop := Relation.ReflTransGen (Child s) root p

/-- The pair stands in a leaf that becomes too small without it, whose siblings
    have nothing to lend, and whose redistribution with the right one overflows. -/
def DeleteOverflows (O : KeyOrder K R) (s : PageFile ε τ) (root : Nat) (x : κ) (rid : RID) : Prop :=
  ∃ parent ls p rs es nx, Under s root parent ∧
    s[parent]? = some (.internal (zipFirst ls p) (zipRest ls p rs)) ∧
    s[p]? = some (.leaf es nx) ∧ (∃ a ∈ es, hits O x rid a) ∧
    (es.eraseP (hits O x rid)).length < minLeafKeys K ∧
    Overflow O s ls rs (es.eraseP (hits O x rid))

section Overflows
variable {x : κ} {rid : RID} {es : List (ε × RID)} {nx q parent y : Nat} {ls ls' : List (Nat × ε)}
  {rs rs' : List (ε × Nat)}

theorem child_iff_mem_rowAt {child : Nat} {rest : List (ε × Nat)} {c : Nat}
    (hq : s[q]? = some (.internal child rest)) : Child s q c ↔ c ∈ nodes (rowAt s q) := by
  rw [rowAt_internal hq]
  simp [Child, hq, row]

theorem Focus.under (hf : Focus O s height root h path before p after) : Under s root p := by
  induction hf with
  | root _ => exact .refl
  | down hup _ hpage _ _ _ _ ih =>
    refine ih.tail ((child_iff_mem_rowAt hpage).mpr ?_)
    simp [rowAt_internal hpage, row_zip]

/-- A leaf has no pages under it but itself. -/
theorem Under.eq_of_leaf (hu : Under s p y) (hp : s[p]? = some (.leaf es nx)) : y = p := by
  obtain rfl | ⟨c, ⟨child, rest, hpage, -⟩, -⟩ := hu.cases_head
  · rfl
  · rw [hp] at hpage
    cases hpage

/-- A page of the tree is above a level, or under a node of it. -/
theorem Tower.under (ht : Tower O s height root h level) (hu : Under s root y) :
    (∃ q ∈ nodes level, Under s q y) ∨
      ∃ child rest j, s[y]? = some (.internal child rest) ∧ h ≤ j ∧
        ∀ c, Child s y c → height c = some j := by
  induction ht with
  | root _ => exact .inl ⟨root, by simp, hu⟩
  | @down h level hup hnodes hlevel ih =>
    obtain ⟨q, hq, hu⟩ | ⟨child, rest, j, hpage, hj, hchild⟩ := ih
    · obtain ⟨child, rest, hpage, -⟩ := hnodes q hq
      have hmem : ∀ c, Child s q c → c ∈ nodes (expand (rowAt s) level) := fun c hc =>
        mem_nodes_expand.mpr ⟨q, hq, (child_iff_mem_rowAt hpage).mp hc⟩
      obtain rfl | ⟨c, hc, hu⟩ := hu.cases_head
      · exact .inr ⟨child, rest, h, hpage, le_rfl, fun c hc => hlevel.height_eq c (hmem c hc)⟩
      · exact .inl ⟨c, hmem c hc, hu⟩
    · exact .inr ⟨child, rest, j, hpage, by omega, hchild⟩

theorem Tree.mem_of_under (ht : Tree O s height root level) (hu : Under s root p)
    (hp : s[p]? = some (.leaf es nx)) : p ∈ nodes level := by
  obtain ⟨q, hq, hu⟩ | ⟨child, rest, j, hpage, -⟩ := ht.tower.under hu
  · obtain ⟨es', nx', hq', -⟩ := ht.leaf q hq
    rwa [hu.eq_of_leaf hq']
  · rw [hp] at hpage
    cases hpage

/-- A leaf that holds the pair is the one the descent ends at. -/
theorem Found.eq_of_hits (hf : Found O s height root level x path before p after es nx)
    (ht : Tree O s height root level) {es' : List (ε × RID)} {nx' : Nat} (hu : Under s root q)
    (hq : s[q]? = some (.leaf es' nx')) (hhit : ∃ a ∈ es', hits O x rid a) : q = p := by
  have hmem := ht.mem_of_under hu hq
  obtain ⟨a, ha, hhit⟩ := hhit
  rw [hf.level_eq] at hmem
  obtain rfl | hmem := mem_nodes_focus.mp hmem
  · rfl
  · rw [nodes_append, List.mem_append] at hmem
    have hent : ∀ l, q ∈ nodes l → a ∈ entries s l := fun l hl => by
      rw [entries_eq_flatMap, List.mem_flatMap]
      exact ⟨q, hl, by rwa [entriesAt_leaf hq]⟩
    obtain hmem | hmem := hmem
    · exact absurd hhit (hf.not_hits_before a (hent _ hmem))
    · exact absurd hhit (hf.not_hits_after a (hent _ hmem))

/-- The children of a node in focus, told from its page. -/
theorem Above.zip_eq (ha : Above O s height root path before parent after ls q rs)
    (hpage : s[parent]? = some (.internal (zipFirst ls' q) (zipRest ls' q rs'))) :
    ls' = ls ∧ rs' = rs := by
  have hnd := ha.family.nodup
  have hrow := ha.page.symm.trans hpage
  simp only [Option.some.injEq, Page.internal.injEq] at hrow
  have heq : left ls' ++ .node q :: right rs' = left ls ++ .node q :: right rs := by
    rw [← row_zip, ← row_zip, hrow.1, hrow.2]
  rw [List.nodup_middle, List.nodup_cons, List.mem_append, not_or] at hnd
  have hnl : .node q ∉ left ls := by simpa [← mem_nodes] using hnd.1.1
  have hnr : .node q ∉ right rs := by simpa [← mem_nodes] using hnd.1.2
  obtain ⟨hl, -, hr⟩ := (List.append_cons_inj_of_notMem hnl hnr).mp heq.symm
  exact ⟨left_injective hl.symm, right_injective hr.symm⟩

/-- The parent of a leaf, told from its page. -/
theorem Above.parent_eq (ha : Above O s height root path before parent after ls q rs)
    (ht : Tree O s height root ((expand (rowAt s) before ++ left ls) ++
      .node q :: (right rs ++ expand (rowAt s) after)))
    (hu : Under s root y) (hc : Child s y q) : y = parent := by
  have hlevel := ha.focus.toLevel
  have heq : expand (rowAt s) (before ++ .node parent :: after) =
      (expand (rowAt s) before ++ left ls) ++ .node q :: (right rs ++ expand (rowAt s) after) := by
    simp [rowAt_internal ha.page, row_zip]
  obtain ⟨z, hz, hu⟩ | ⟨-, -, j, -, hj, hchild⟩ := ha.focus.tower.under hu
  · obtain rfl | ⟨c, hzc, hu⟩ := hu.cases_head
    · -- a node of the level has no child of another one
      by_contra hne
      obtain ⟨child, rest, hpage, hmem⟩ := hc
      have hz' := (mem_nodes_focus.mp hz).resolve_left hne
      have hrow : q ∈ nodes (rowAt s z) := (child_iff_mem_rowAt hpage).mp ⟨_, _, hpage, hmem⟩
      have hq : q ∈ nodes (expand (rowAt s) before) ∨ q ∈ nodes (expand (rowAt s) after) := by
        rw [nodes_append, List.mem_append] at hz'
        exact hz'.imp (fun h => mem_nodes_expand.mpr ⟨z, h, hrow⟩)
          fun h => mem_nodes_expand.mpr ⟨z, h, hrow⟩
      refine ha.level.ne_focus ?_ rfl
      simp only [nodes_append, List.mem_append]
      tauto
    · obtain ⟨child, rest, hzpage, -⟩ := id hzc
      have hmem : c ∈ nodes (expand (rowAt s) (before ++ .node parent :: after)) :=
        mem_nodes_expand.mpr ⟨z, hz, (child_iff_mem_rowAt hzpage).mp hzc⟩
      obtain ⟨es, nx, hleaf, -⟩ := ht.leaf c (heq ▸ hmem)
      obtain ⟨child, rest, hpage, -⟩ := hc
      rw [Under.eq_of_leaf hu hleaf, hleaf] at hpage
      cases hpage
  · have hq := hchild q hc
    rw [ha.level.height_eq q (by simp), Option.some.injEq] at hq
    omega

/-- Where a deletion overflows, told at the leaf the descent ends at. -/
theorem Above.deleteOverflows_iff (ha : Above O s height root path before parent after ls q rs)
    (ht : Tree O s height root level)
    (hf : Found O s height root level x (parent :: path) (expand (rowAt s) before ++ left ls) q
      (right rs ++ expand (rowAt s) after) es nx) :
    DeleteOverflows O s root x rid ↔ (∃ a ∈ es, hits O x rid a) ∧
      (es.eraseP (hits O x rid)).length < minLeafKeys K ∧
      Overflow O s ls rs (es.eraseP (hits O x rid)) := by
  constructor
  · rintro ⟨parent', ls', q', rs', es', nx', hu, hpage, hq', hhit, hlen, hover⟩
    have hc : Child s parent' q' := ⟨_, _, hpage, by rw [cons_map_snd_zipRest]; simp⟩
    obtain rfl := hf.eq_of_hits ht (hu.tail hc) hq' hhit
    obtain rfl := ha.parent_eq (hf.level_eq ▸ ht) hu hc
    obtain ⟨rfl, rfl⟩ := ha.zip_eq hpage
    obtain ⟨rfl, rfl⟩ : es = es' ∧ nx = nx' := by simpa [hf.page] using hq'
    exact ⟨hhit, hlen, hover⟩
  · rintro ⟨hhit, hlen, hover⟩
    exact ⟨parent, ls, q, rs, es, nx, ha.focus.under, ha.page, hf.page, hhit, hlen, hover⟩

/-- A tree of one leaf does not overflow. -/
theorem not_deleteOverflows_root (hroot : s[root]? = some (.leaf es nx)) :
    ¬DeleteOverflows O s root x rid := by
  rintro ⟨parent, ls, q, rs, es', nx', hu, hpage, -⟩
  rw [hu.eq_of_leaf hroot, hroot] at hpage
  cases hpage

/-- The walk from the leaf that has lost the entry. -/
theorem Found.fixupAfterDelete (hf : Found O s height root level x path before p after es nx)
    (ht : Tree O s height root level) (hhit : ∃ a ∈ es, hits O x rid a) :
    (DeleteOverflows O s root x rid → ∃ s', BPlusTree.fixupAfterDelete K root (p :: path)
      (s.set p (.leaf (es.eraseP (hits O x rid)) nx)) = .error .structError s') ∧
    (¬DeleteOverflows O s root x rid → ∃ root' s', BPlusTree.fixupAfterDelete K root (p :: path)
      (s.set p (.leaf (es.eraseP (hits O x rid)) nx)) = .ok root' s' ∧
        Removed O s height ((entries s level).eraseP (hits O x rid)) s' root') := by
  have hsub : (es.eraseP (hits O x rid)).Sublist es := List.eraseP_sublist
  have hentries := hf.eraseP_eq hhit
  rw [hentries]
  have hfocus := hf.focus
  cases hfocus with
  | root hlevel =>
    refine ⟨fun hover => absurd hover (not_deleteOverflows_root hf.page), fun _ => ?_⟩
    obtain ⟨hrun, hremoved⟩ := (hf.level_eq ▸ ht).remove_root hf.page hsub
    exact ⟨root, _, hrun, by simpa [entries] using hremoved⟩
  | @down _ parent _ path before after ls rs hup hnodes hpage hfits hlo hhi hlevel =>
    have ha : Above O s height root path before parent after ls p rs :=
      ⟨hup, hnodes, hpage, hfits, hlo, hhi, hlevel⟩
    have ht' := ht
    rw [hf.level_eq] at ht'
    rw [ha.deleteOverflows_iff ht hf]
    by_cases hlen : (es.eraseP (hits O x rid)).length < minLeafKeys K
    · obtain ⟨hok, hfail⟩ := ht'.remove_small ha hf.page hsub hlen
      exact ⟨fun hover => hfail hover.2.2, fun hno => hok fun hover => hno ⟨hhit, hlen, hover⟩⟩
    · refine ⟨fun hover => absurd hover.2.1 hlen, fun _ => ?_⟩
      exact ⟨root, _, ht'.remove_large ha hf.page hsub (Nat.not_lt.mp hlen)⟩

/-- Deletion of a pair that is in the tree takes out its first occurrence, unless a
    page overflows. -/
theorem Tree.delete_present (ht : Tree O s height root level) (hx : O.Comparable x)
    (hhit : ∃ a ∈ entries s level, hits O x rid a) :
    (DeleteOverflows O s root x rid → ∃ s', delete K root x rid s = .error .structError s') ∧
    (¬DeleteOverflows O s root x rid → ∃ root' s', delete K root x rid s = .ok (true, root') s' ∧
      Removed O s height ((entries s level).eraseP (hits O x rid)) s' root') := by
  obtain ⟨path, before, p, after, es, nx, hf⟩ := ht.find hx
  rw [hf.exists_hits] at hhit
  rw [hf.delete_eq ht.inOrder hx, if_pos hhit]
  obtain ⟨hfail, hok⟩ := hf.fixupAfterDelete ht hhit
  refine ⟨fun hover => ?_, fun hno => ?_⟩
  · obtain ⟨s', hrun⟩ := hfail hover
    exact ⟨s', run_bind_error hrun⟩
  · obtain ⟨root', s', hrun, hremoved⟩ := hok hno
    exact ⟨root', s', run_bind_ok hrun, hremoved⟩

/-- Deletion of a pair that is not in the tree changes nothing. -/
theorem Tree.delete_absent (ht : Tree O s height root level) (hx : O.Comparable x)
    (hmiss : ¬∃ a ∈ entries s level, hits O x rid a) :
    ¬DeleteOverflows O s root x rid ∧ delete K root x rid s = .ok (false, root) s := by
  obtain ⟨path, before, p, after, es, nx, hf⟩ := ht.find hx
  refine ⟨?_, ?_⟩
  · rintro ⟨parent, ls, q, rs, es', nx', hu, hpage, hq, ⟨a, ha, hhit⟩, -⟩
    have hc : Child s parent q := ⟨_, _, hpage, by rw [cons_map_snd_zipRest]; simp⟩
    refine hmiss ⟨a, ?_, hhit⟩
    rw [entries_eq_flatMap, List.mem_flatMap]
    exact ⟨q, ht.mem_of_under (hu.tail hc) hq, by rwa [entriesAt_leaf hq]⟩
  · rw [hf.exists_hits] at hmiss
    rw [hf.delete_eq ht.inOrder hx, if_neg hmiss]

end Overflows

end Minirel.BPlusTree

-- SUMMARY: The shape of a tree on the page file: its levels as rows of page ids, and a node in focus with its ancestors.
import Minirel.Index.Nodes

/-!
# The shape of a tree

A level of a tree is a row of page ids with separators between them, and the
level below it is the same row with every page id replaced by the row on its
page. So the lowest level lists the leaves from left to right with every
separator of the tree between them, and an internal node only groups a part of
it: moving children between siblings leaves the rows below as they are.

`height` labels the pages of one tree by their distance from the leaves. Pages
of other trees and heaps have no label.
-/

namespace Minirel.BPlusTree

open Row

variable {κ ε τ R : Type} [LinearOrder R] {K : KeyType κ ε}

/-- The row on an internal page. -/
def rowAt (s : PageFile ε τ) (pageId : Nat) : List (Item Nat ε) :=
  match s[pageId]? with
  | some (.internal child rest) => row child rest
  | _ => []

/-- A page that holds a proper internal node with at least `lo` keys. -/
def IsInternal (O : KeyOrder K R) (s : PageFile ε τ) (lo pageId : Nat) : Prop :=
  ∃ child rest, s[pageId]? = some (.internal child rest) ∧ InternalFits O child rest ∧
    lo ≤ rest.length ∧ rest.length ≤ maxInternalKeys K

/-- The root may have fewer keys than the other internal nodes, but has one. -/
def minKeysOf (K : KeyType κ ε) (root pageId : Nat) : Nat :=
  if pageId = root then 1 else minInternalKeys K

/-- A level: distinct pages of the file, all of the same height. -/
structure Level (s : PageFile ε τ) (height : Nat → Option Nat) (h : Nat)
    (level : List (Item Nat ε)) : Prop where
  nodup : (nodes level).Nodup
  height_eq : ∀ p ∈ nodes level, height p = some h
  lt_length : ∀ p ∈ nodes level, p < s.length

/-- The levels from the root down to height `h`, of which `level` is the lowest. -/
inductive Tower (O : KeyOrder K R) (s : PageFile ε τ) (height : Nat → Option Nat) (root : Nat) :
    Nat → List (Item Nat ε) → Prop where
  | root {h : Nat} (hlevel : Level s height h [.node root]) : Tower O s height root h [.node root]
  | down {h : Nat} {level : List (Item Nat ε)} (hup : Tower O s height root (h + 1) level)
      (hnodes : ∀ p ∈ nodes level, IsInternal O s (minKeysOf K root p) p)
      (hlevel : Level s height h (expand (rowAt s) level)) :
      Tower O s height root h (expand (rowAt s) level)

/-- A node `p` at height `h` with its ancestors, nearest first, and what stands
    before and after it on its level. -/
inductive Focus (O : KeyOrder K R) (s : PageFile ε τ) (height : Nat → Option Nat) (root : Nat) :
    Nat → List Nat → List (Item Nat ε) → Nat → List (Item Nat ε) → Prop where
  | root {h : Nat} (hlevel : Level s height h [.node root]) :
      Focus O s height root h [] [] root []
  | down {h q p : Nat} {path : List Nat} {before after : List (Item Nat ε)}
      {ls : List (Nat × ε)} {rs : List (ε × Nat)}
      (hup : Focus O s height root (h + 1) path before q after)
      (hnodes : ∀ x ∈ nodes (before ++ after), IsInternal O s (minInternalKeys K) x)
      (hpage : s[q]? = some (.internal (zipFirst ls p) (zipRest ls p rs)))
      (hfits : InternalFits O (zipFirst ls p) (zipRest ls p rs))
      (hlo : minKeysOf K root q ≤ ls.length + rs.length)
      (hhi : ls.length + rs.length ≤ maxInternalKeys K)
      (hlevel : Level s height h
        ((expand (rowAt s) before ++ left ls) ++ .node p :: (right rs ++ expand (rowAt s) after))) :
      Focus O s height root h (q :: path) (expand (rowAt s) before ++ left ls) p
        (right rs ++ expand (rowAt s) after)

variable {O : KeyOrder K R} {s s' : PageFile ε τ} {height height' : Nat → Option Nat}
  {root h p : Nat} {path : List Nat} {before after level : List (Item Nat ε)}

@[simp] theorem rowAt_internal {pageId child : Nat} {rest : List (ε × Nat)}
    (h : s[pageId]? = some (.internal child rest)) : rowAt s pageId = row child rest := by
  simp [rowAt, h]

theorem rowAt_congr {pageId : Nat} (h : s'[pageId]? = s[pageId]?) :
    rowAt s' pageId = rowAt s pageId := by
  simp [rowAt, h]

theorem IsInternal.congr {lo pageId : Nat} (hi : IsInternal O s lo pageId)
    (h : s'[pageId]? = s[pageId]?) : IsInternal O s' lo pageId := by
  obtain ⟨child, rest, hpage, hrest⟩ := hi
  exact ⟨child, rest, h.trans hpage, hrest⟩

theorem IsInternal.mono {lo lo' pageId : Nat} (hi : IsInternal O s lo pageId) (h : lo' ≤ lo) :
    IsInternal O s lo' pageId := by
  obtain ⟨child, rest, hpage, hfits, hlo, hhi⟩ := hi
  exact ⟨child, rest, hpage, hfits, h.trans hlo, hhi⟩

theorem minKeysOf_le (root pageId : Nat) : minKeysOf K root pageId ≤ minInternalKeys K := by
  unfold minKeysOf minInternalKeys
  split <;> omega

theorem one_le_minKeysOf (K : KeyType κ ε) (root pageId : Nat) : 1 ≤ minKeysOf K root pageId := by
  unfold minKeysOf minInternalKeys
  split <;> omega

theorem Level.frame (hl : Level s height h level)
    (hheight : ∀ x j, height x = some j → height' x = some j) (hlen : s.length ≤ s'.length) :
    Level s' height' h level where
  nodup := hl.nodup
  height_eq p hp := hheight p h (hl.height_eq p hp)
  lt_length p hp := (hl.lt_length p hp).trans_le hlen

theorem Focus.toLevel (hf : Focus O s height root h path before p after) :
    Level s height h (before ++ .node p :: after) := by
  cases hf with
  | root hlevel => exact hlevel
  | down _ _ _ _ _ _ hlevel => exact hlevel

/-- The root stands as many levels higher as the node in focus has ancestors. -/
theorem Focus.height_root (hf : Focus O s height root h path before p after) :
    height root = some (h + path.length) := by
  induction hf with
  | root hlevel => exact hlevel.height_eq _ (by simp)
  | down _ _ _ _ _ _ _ ih => simpa [Nat.add_assoc, Nat.add_comm 1] using ih

/-- The other nodes of a level are not the root. -/
theorem Focus.ne_root (hf : Focus O s height root h path before p after) {x : Nat}
    (hx : x ∈ nodes (before ++ after)) : x ≠ root := by
  rintro rfl
  cases hf with
  | root => simp at hx
  | down hup hnodes hpage hfits hlo hhi hlevel =>
    have hroot := (Focus.down hup hnodes hpage hfits hlo hhi hlevel).height_root
    rw [hlevel.height_eq x (mem_nodes_focus.mpr (.inr hx))] at hroot
    simp at hroot

/-- What a focus says about the level of the node depends on the pages above. -/
theorem Focus.frame (hf : Focus O s height root h path before p after)
    (hpages : ∀ x j, h < j → height x = some j → s'[x]? = s[x]?)
    (hheight : ∀ x j, height x = some j → height' x = some j) (hlen : s.length ≤ s'.length) :
    Focus O s' height' root h path before p after := by
  induction hf with
  | root hlevel => exact .root (hlevel.frame hheight hlen)
  | @down h q p path before after ls rs hup hnodes hpage hfits hlo hhi hlevel ih =>
    have hup' := ih (fun x j hj => hpages x j (by omega))
    have hrow : ∀ x ∈ nodes (before ++ after), s'[x]? = s[x]? := fun x hx =>
      hpages x (h + 1) (by omega) (hup.toLevel.height_eq x (mem_nodes_focus.mpr (.inr hx)))
    have hbefore : expand (rowAt s) before = expand (rowAt s') before :=
      expand_congr fun x hx => (rowAt_congr (hrow x (by simp [hx]))).symm
    have hafter : expand (rowAt s) after = expand (rowAt s') after :=
      expand_congr fun x hx => (rowAt_congr (hrow x (by simp [hx]))).symm
    have hq : s'[q]? = s[q]? :=
      hpages q (h + 1) (by omega) (hup.toLevel.height_eq q (by simp))
    rw [hbefore, hafter] at hlevel ⊢
    exact .down hup' (fun x hx => (hnodes x hx).congr (hrow x hx)) (hq.trans hpage) hfits hlo hhi
      (hlevel.frame hheight hlen)

theorem Tower.toLevel (ht : Tower O s height root h level) : Level s height h level := by
  cases ht with
  | root hlevel => exact hlevel
  | down _ _ hlevel => exact hlevel

/-- A tower stands on the pages that have a height. -/
theorem Tower.congr (ht : Tower O s height root h level)
    (hpages : ∀ x j, height x = some j → s'[x]? = s[x]?) (hlen : s.length ≤ s'.length) :
    Tower O s' height root h level := by
  induction ht with
  | root hlevel => exact .root (hlevel.frame (fun _ _ hx => hx) hlen)
  | @down h level hup hnodes hlevel ih =>
    have hsame : ∀ x ∈ nodes level, s'[x]? = s[x]? := fun x hx =>
      hpages x (h + 1) (hup.toLevel.height_eq x hx)
    have hrow : expand (rowAt s) level = expand (rowAt s') level :=
      expand_congr fun x hx => (rowAt_congr (hsame x hx)).symm
    rw [hrow] at hlevel ⊢
    exact .down ih (fun x hx => (hnodes x hx).congr (hsame x hx))
      (hlevel.frame (fun _ _ hx => hx) hlen)

/-- The level below a node in focus, when the node itself is in order. -/
theorem Tower.down_focus {q : Nat} (hup : Tower O s height root (h + 1) (before ++ .node q :: after))
    (hnodes : ∀ x ∈ nodes (before ++ after), IsInternal O s (minInternalKeys K) x)
    (hq : IsInternal O s (minKeysOf K root q) q)
    (hlevel : Level s height h (expand (rowAt s) (before ++ .node q :: after))) :
    Tower O s height root h (expand (rowAt s) (before ++ .node q :: after)) := by
  refine .down hup (fun x hx => ?_) hlevel
  obtain rfl | hx := mem_nodes_focus.mp hx
  · exact hq
  · exact (hnodes x hx).mono (minKeysOf_le _ _)

/-- The level below a level of which a window was rewritten: only the part below
    the window may change. -/
theorem Tower.down_window {root' : Nat} {win mid : List (Item Nat ε)}
    (htower : Tower O s' height' root' (h + 1) (before ++ win ++ after))
    (hsame : ∀ x ∈ nodes (before ++ after), s'[x]? = s[x]?)
    (hrest : ∀ x ∈ nodes (before ++ after), IsInternal O s (minInternalKeys K) x)
    (hwin : ∀ x ∈ nodes win, IsInternal O s' (minInternalKeys K) x)
    (hmid : expand (rowAt s') win = mid)
    (hlevel : Level s' height' h (expand (rowAt s) before ++ mid ++ expand (rowAt s) after)) :
    Tower O s' height' root' h (expand (rowAt s) before ++ mid ++ expand (rowAt s) after) := by
  have hbefore : expand (rowAt s') before = expand (rowAt s) before :=
    expand_congr fun x hx => rowAt_congr (hsame x (by simp [hx]))
  have hafter : expand (rowAt s') after = expand (rowAt s) after :=
    expand_congr fun x hx => rowAt_congr (hsame x (by simp [hx]))
  have heq : expand (rowAt s') (before ++ win ++ after) =
      expand (rowAt s) before ++ mid ++ expand (rowAt s) after := by
    rw [expand_append, expand_append, hbefore, hafter, hmid]
  rw [← heq] at hlevel ⊢
  refine .down htower (fun x hx => ?_) hlevel
  have hcases : x ∈ nodes win ∨ x ∈ nodes (before ++ after) := by
    simp only [nodes_append, List.mem_append] at hx ⊢
    tauto
  obtain hx | hx := hcases
  · exact (hwin x hx).mono (minKeysOf_le _ _)
  · exact ((hrest x hx).congr (hsame x hx)).mono (minKeysOf_le _ _)

theorem Focus.tower (hf : Focus O s height root h path before p after) :
    Tower O s height root h (before ++ .node p :: after) := by
  induction hf with
  | root hlevel => exact .root hlevel
  | @down h q p path before after ls rs hup hnodes hpage hfits hlo hhi hlevel ih =>
    have heq : expand (rowAt s) (before ++ .node q :: after) =
        (expand (rowAt s) before ++ left ls) ++
          .node p :: (right rs ++ expand (rowAt s) after) := by
      simp [rowAt_internal hpage, row_zip]
    rw [← heq] at hlevel ⊢
    exact ih.down_focus hnodes ⟨_, _, hpage, hfits, by simpa using hlo, by simpa using hhi⟩ hlevel

/-! ## Rewriting the node in focus -/

theorem Level.ne_focus (hl : Level s height h (before ++ .node p :: after)) {x : Nat}
    (hx : x ∈ nodes (before ++ after)) : x ≠ p := by
  rintro rfl
  have hnd := hl.nodup
  rw [nodes_append, nodes_node, List.nodup_middle, List.nodup_cons] at hnd
  exact hnd.1 (by simpa using hx)

/-- A child is none of those before it. -/
theorem Level.notMem_left {ls : List (Nat × ε)} {rest : List (Item Nat ε)}
    (hl : Level s height h ((before ++ left ls) ++ .node p :: rest)) : p ∉ ls.map (·.1) := by
  intro hmem
  refine hl.ne_focus (x := p) ?_ rfl
  simp only [nodes_append, nodes_left, List.mem_append]
  exact .inl (.inr hmem)

theorem Focus.set_page (hf : Focus O s height root h path before p after) (page : Page ε τ) :
    Focus O (s.set p page) height root h path before p after := by
  refine hf.frame (fun x j hj hx => ?_) (fun _ _ hx => hx) (by simp)
  refine List.getElem?_set_ne ?_
  rintro rfl
  rw [hf.toLevel.height_eq _ (by simp)] at hx
  simp only [Option.some.injEq] at hx
  omega

theorem Level.getElem?_set (hl : Level s height h (before ++ .node p :: after)) {x : Nat}
    (hx : x ∈ nodes (before ++ after)) (page : Page ε τ) : (s.set p page)[x]? = s[x]? :=
  List.getElem?_set_ne (hl.ne_focus hx).symm

/-- The level below a node whose page is rewritten: only its own part changes. -/
theorem Level.expand_set (hl : Level s height h (before ++ .node p :: after)) (child : Nat)
    (rest : List (ε × Nat)) :
    expand (rowAt (s.set p (.internal child rest))) (before ++ .node p :: after) =
      expand (rowAt s) before ++ row child rest ++ expand (rowAt s) after := by
  have hlt := hl.lt_length p (by simp)
  have hself : (s.set p (.internal child rest))[p]? = some (.internal child rest) :=
    List.getElem?_set_self hlt
  have hcongr : ∀ l, (∀ x ∈ nodes l, x ∈ nodes (before ++ after)) →
      expand (rowAt (s.set p (.internal child rest))) l = expand (rowAt s) l := fun l hl' =>
    expand_congr fun x hx => rowAt_congr (hl.getElem?_set (hl' x hx) _)
  rw [expand_append, expand_node, rowAt_internal hself, hcongr before (by simp +contextual),
    hcongr after (by simp +contextual), List.append_assoc]

/-! ## What an operation may change -/

/-- What an operation on the nodes of certain heights may do: change those nodes
    and append pages, each of which becomes such a node of the tree. -/
structure Grows (P : Nat → Prop) (s : PageFile ε τ) (height : Nat → Option Nat)
    (s' : PageFile ε τ) (height' : Nat → Option Nat) : Prop where
  height_mono : ∀ x j, height x = some j → height' x = some j
  height_cases : ∀ x j, height' x = some j →
    height x = some j ∨ s.length ≤ x ∧ x < s'.length ∧ P j
  height_fresh : ∀ x, s.length ≤ x → x < s'.length → ∃ j, height' x = some j
  length_le : s.length ≤ s'.length
  pages : ∀ x < s.length, (∀ j, height x = some j → ¬ P j) → s'[x]? = s[x]?

section Grows
variable {P Q : Nat → Prop}

theorem Grows.refl : Grows P s height s height where
  height_mono _ _ hx := hx
  height_cases _ _ hx := .inl hx
  height_fresh _ hx hx' := absurd (hx.trans_lt hx') (lt_irrefl _)
  length_le := le_rfl
  pages _ _ _ := rfl

theorem Grows.trans {s₁ : PageFile ε τ} {height₁ : Nat → Option Nat}
    (hg : Grows P s height s₁ height₁) (hg' : Grows Q s₁ height₁ s' height')
    (hQP : ∀ j, Q j → P j) : Grows P s height s' height' where
  height_mono x j hx := hg'.height_mono x j (hg.height_mono x j hx)
  height_cases x j hx := by
    obtain hx | ⟨hle, hlt, hj⟩ := hg'.height_cases x j hx
    · obtain hx | ⟨hle, hlt, hj⟩ := hg.height_cases x j hx
      · exact .inl hx
      · exact .inr ⟨hle, hlt.trans_le hg'.length_le, hj⟩
    · exact .inr ⟨hg.length_le.trans hle, hlt, hQP j hj⟩
  height_fresh x hx hx' := by
    by_cases hlt : x < s₁.length
    · obtain ⟨j, hj⟩ := hg.height_fresh x hx hlt
      exact ⟨j, hg'.height_mono x j hj⟩
    · exact hg'.height_fresh x (not_lt.mp hlt) hx'
  length_le := hg.length_le.trans hg'.length_le
  pages x hx hP := by
    rw [hg'.pages x (hx.trans_le hg.length_le), hg.pages x hx hP]
    intro j hj hQ
    obtain hj | ⟨hle', -, -⟩ := hg.height_cases x j hj
    · exact hP j hj (hQP j hQ)
    · omega

theorem Grows.scope (hg : Grows P s height s' height')
    (hscope : ∀ x j, height x = some j → x < s.length) {x j : Nat} (hx : height' x = some j) :
    x < s'.length := by
  obtain hx | ⟨-, hx, -⟩ := hg.height_cases x j hx
  · exact (hscope x j hx).trans_le hg.length_le
  · exact hx

theorem Grows.set {j : Nat} (hp : height p = some j) (hj : P j) (page : Page ε τ) :
    Grows P s height (s.set p page) height where
  height_mono _ _ hx := hx
  height_cases _ _ hx := .inl hx
  height_fresh x hx hx' := by
    simp only [List.length_set] at hx'
    omega
  length_le := by simp
  pages x _ hP := by
    refine List.getElem?_set_ne ?_
    rintro rfl
    exact hP j hp hj

/-- Labelling a fresh page. -/
theorem Grows.newPage {j : Nat} (hscope : ∀ x j, height x = some j → x < s.length) (hj : P j)
    {page : Page ε τ} :
    Grows P s height (s ++ [page]) (Function.update height s.length (some j)) where
  height_mono x i hx := by
    rw [Function.update_of_ne (hscope x i hx).ne, hx]
  height_cases x i hx := by
    by_cases hxs : x = s.length
    · subst hxs
      simp only [Function.update_self, Option.some.injEq] at hx
      exact .inr ⟨le_rfl, by simp, hx ▸ hj⟩
    · rw [Function.update_of_ne hxs] at hx
      exact .inl hx
  height_fresh x hx hx' := by
    simp only [List.length_append, List.length_cons, List.length_nil] at hx'
    obtain rfl : x = s.length := by omega
    exact ⟨j, by simp⟩
  length_le := by simp
  pages x hx _ := List.getElem?_append_left hx

end Grows

end Minirel.BPlusTree

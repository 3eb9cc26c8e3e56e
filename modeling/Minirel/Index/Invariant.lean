-- SUMMARY: The shape of a tree read from its root: depth, occupancy, separators, pages and the chain of its leaves.
import Minirel.Index.Multimap

/-!
# The shape of a tree, from its root

`Tree` describes a tree by its levels. Here the same is said the other way around, of a
page and what lies below it, as a reader of the pages meets it.
-/

namespace Minirel.BPlusTree

open Row

variable {κ ε τ R : Type} [LinearOrder R] {K : KeyType κ ε} {O : KeyOrder K R} {s : PageFile ε τ}
  {height : Nat → Option Nat} {root : Nat} {level : List (Item Nat ε)}

/-! ## What lies below a page -/

/-- The children of an internal page, from left to right. -/
def childrenAt (s : PageFile ε τ) (pageId : Nat) : List Nat := nodes (rowAt s pageId)

/-- The leaves below a page, as far down as `depth`. -/
def leavesUnder (s : PageFile ε τ) : Nat → Nat → List Nat
  | 0, pageId => [pageId]
  | depth + 1, pageId => (childrenAt s pageId).flatMap (leavesUnder s depth)

/-- A page and those below it. -/
def pagesUnder (s : PageFile ε τ) : Nat → Nat → List Nat
  | 0, pageId => [pageId]
  | depth + 1, pageId => pageId :: (childrenAt s pageId).flatMap (pagesUnder s depth)

/-- The keys on the leaves below a page. -/
def keysUnder (s : PageFile ε τ) (depth pageId : Nat) : List ε :=
  ((leavesUnder s depth pageId).flatMap (entriesAt s)).map (·.1)

/-- Every separator of a row is above the keys below the children on its left, and at most
    the keys below those on its right. -/
def Separated (O : KeyOrder K R) (s : PageFile ε τ) (depth : Nat) (children : List (Item Nat ε)) : Prop :=
  ∀ l k r, children = l ++ .sep k :: r →
    (∀ q ∈ nodes l, ∀ key ∈ keysUnder s depth q, O.rk key < O.rk k) ∧
    ∀ q ∈ nodes r, ∀ key ∈ keysUnder s depth q, O.rk k ≤ O.rk key

/-- A subtree whose leaves all lie `depth` levels below its page. Only the root may be an
    empty leaf, or have fewer keys than the minimum. An internal page has one key for every
    child but the first. -/
def Subtree (O : KeyOrder K R) (s : PageFile ε τ) (root : Nat) : Nat → Nat → Prop
  | 0, pageId => ∃ es nx, s[pageId]? = some (.leaf es nx) ∧ es.length ≤ maxLeafKeys K ∧
      (es = [] → pageId = root)
  | depth + 1, pageId => ∃ child rest, s[pageId]? = some (.internal child rest) ∧
      minKeysOf K root pageId ≤ rest.length ∧ rest.length ≤ maxInternalKeys K ∧
      (∀ q ∈ childrenAt s pageId, Subtree O s root depth q) ∧ Separated O s depth (row child rest)

/-- Following the next pointers from a page until the id that means "no page". -/
inductive Walk (s : PageFile ε τ) : Nat → List Nat → Prop where
  | done : Walk s invalidPageId []
  | step {pageId next : Nat} {es : List (ε × RID)} {rest : List Nat} (hvalid : pageId ≠ invalidPageId)
      (hpage : s[pageId]? = some (.leaf es next)) (hrest : Walk s next rest) :
      Walk s pageId (pageId :: rest)

/-- The shape of a tree of some depth. -/
structure Shaped (O : KeyOrder K R) (s : PageFile ε τ) (root depth : Nat) : Prop where
  subtree : Subtree O s root depth root
  once : (pagesUnder s depth root).Nodup
  apart : (leavesUnder s depth root).Pairwise fun p q =>
    ∀ a ∈ entriesAt s p, ∀ b ∈ entriesAt s q, O.rk a.1 ≠ O.rk b.1
  chain : ∃ first, leftmostLeaf K root s = .ok first s ∧ Walk s first (leavesUnder s depth root)

/-! ## From the levels to the subtrees -/

/-- The leaves below a page with the separators between them. -/
def subtreeRow (s : PageFile ε τ) : Nat → Nat → List (Item Nat ε)
  | 0, pageId => [.node pageId]
  | depth + 1, pageId => expand (subtreeRow s depth) (rowAt s pageId)

theorem nodes_expand_eq {α β : Type} (f : α → List (Item β ε)) (l : List (Item α ε)) :
    nodes (expand f l) = (nodes l).flatMap fun a => nodes (f a) := by
  induction l with
  | nil => rfl
  | cons x l ih => cases x <;> simp [ih]

theorem expand_expand {α β γ : Type} (f : α → List (Item β ε)) (g : β → List (Item γ ε))
    (l : List (Item α ε)) : expand g (expand f l) = expand (fun a => expand g (f a)) l := by
  induction l with
  | nil => rfl
  | cons x l ih => cases x <;> simp [ih]

theorem nodes_subtreeRow (s : PageFile ε τ) (depth pageId : Nat) :
    nodes (subtreeRow s depth pageId) = leavesUnder s depth pageId := by
  induction depth generalizing pageId with
  | zero => rfl
  | succ depth ih =>
    rw [subtreeRow, nodes_expand_eq, leavesUnder, childrenAt]
    exact List.flatMap_congr fun q _ => ih q

/-- The keys below the nodes of a part of a level, in the contents of that part. -/
theorem mem_contents_of_keysUnder {depth q : Nat} {key : ε} {l : List (Item Nat ε)} (hq : q ∈ nodes l)
    (hkey : key ∈ keysUnder s depth q) :
    ∃ rid, .node (key, rid) ∈ contents s (expand (subtreeRow s depth) l) := by
  obtain ⟨⟨key, rid⟩, ha, rfl⟩ := List.mem_map.mp hkey
  obtain ⟨p, hp, hap⟩ := List.mem_flatMap.mp ha
  refine ⟨rid, mem_nodes.mp ?_⟩
  change (key, rid) ∈ entries s (expand (subtreeRow s depth) l)
  rw [entries_eq_flatMap]
  refine List.mem_flatMap.mpr ⟨p, mem_nodes_expand.mpr ⟨q, hq, ?_⟩, hap⟩
  rwa [nodes_subtreeRow]

/-- The separators of a page in a level whose leaves are in order. -/
theorem separated_of_inOrder {depth p : Nat} {up : List (Item Nat ε)} (hp : p ∈ nodes up)
    (hord : InOrder O (contents s (expand (subtreeRow s depth) (expand (rowAt s) up)))) :
    Separated O s depth (rowAt s p) := by
  obtain ⟨u₁, u₂, rfl⟩ := List.append_of_mem (mem_nodes.mp hp)
  intro l k r hrow
  have hsub : (contents s (expand (subtreeRow s depth) (rowAt s p))).Sublist
      (contents s (expand (subtreeRow s depth) (expand (rowAt s) (u₁ ++ .node p :: u₂)))) := by
    simp only [expand_append, expand_node, contents_append]
    exact (List.sublist_append_left _ _).trans (List.sublist_append_right _ _)
  have hord' := hord.sublist hsub
  rw [hrow, expand_append, expand_sep, contents_append, contents_sep] at hord'
  obtain ⟨-, hright, hleft⟩ := List.pairwise_append.mp hord'
  refine ⟨fun q hq key hkey => ?_, fun q hq key hkey => ?_⟩
  · obtain ⟨rid, hmem⟩ := mem_contents_of_keysUnder hq hkey
    exact place_node_le_sep.mp (hleft _ hmem (.sep k) List.mem_cons_self)
  · obtain ⟨rid, hmem⟩ := mem_contents_of_keysUnder hq hkey
    exact place_sep_le_node.mp ((List.pairwise_cons.mp hright).1 _ hmem)

theorem expand_subtreeRow (s : PageFile ε τ) (depth : Nat) (up : List (Item Nat ε)) :
    expand (subtreeRow s depth) (expand (rowAt s) up) = expand (subtreeRow s (depth + 1)) up :=
  expand_expand _ _ _

theorem expand_subtreeRow_zero (s : PageFile ε τ) (l : List (Item Nat ε)) :
    expand (subtreeRow s 0) l = l := by
  induction l with
  | nil => rfl
  | cons x l ih =>
    cases x with
    | node p => rw [expand_node, ih, subtreeRow, List.singleton_append]
    | sep k => rw [expand_sep, ih]

theorem flatMap_pagesUnder_zero (s : PageFile ε τ) (l : List Nat) : l.flatMap (pagesUnder s 0) = l := by
  simp only [pagesUnder, List.flatMap_singleton']

/-- The pages below a level are the level and the pages below the next. -/
theorem pagesUnder_perm (s : PageFile ε τ) (depth : Nat) (ps : List Nat) :
    (ps.flatMap (pagesUnder s (depth + 1))).Perm
      (ps ++ (ps.flatMap (childrenAt s)).flatMap (pagesUnder s depth)) := by
  induction ps with
  | nil => exact .refl _
  | cons p ps ih =>
    simp only [List.flatMap_cons, pagesUnder, List.cons_append, List.flatMap_append]
    refine List.Perm.cons p ?_
    refine (ih.append_left _).trans ?_
    rw [← List.append_assoc, ← List.append_assoc]
    exact List.perm_append_comm.append_right _

/-- Going up from a level whose nodes are subtrees. -/
theorem Tower.subtree {h : Nat} (ht : Tower O s height root h level)
    (hord : InOrder O (contents s (expand (subtreeRow s h) level)))
    (hbelow : ∀ p ∈ nodes level, Subtree O s root h p)
    (hnodup : ((nodes level).flatMap (pagesUnder s h)).Nodup)
    (hheight : ∀ x ∈ (nodes level).flatMap (pagesUnder s h), ∃ j ≤ h, height x = some j) :
    ∃ depth, Subtree O s root depth root ∧ (pagesUnder s depth root).Nodup ∧
      leavesUnder s depth root = nodes (expand (subtreeRow s h) level) := by
  induction ht with
  | @root h hlevel =>
    refine ⟨h, hbelow root (by simp), by simpa using hnodup, ?_⟩
    simp [nodes_subtreeRow]
  | @down h level hup hnodes hlevel ih =>
    have hnodesUp : nodes (expand (rowAt s) level) = (nodes level).flatMap (childrenAt s) :=
      nodes_expand_eq _ _
    rw [hnodesUp] at hnodup hheight
    have hpages := pagesUnder_perm s h (nodes level)
    have hlevelUp := hup.toLevel
    rw [expand_subtreeRow] at hord ⊢
    refine ih hord (fun p hp => ?_) ?_ fun x hx => ?_
    · obtain ⟨child, rest, hpage, hfits, hlo, hhi⟩ := hnodes p hp
      refine ⟨child, rest, hpage, hlo, hhi, fun q hq => hbelow q ?_, ?_⟩
      · rw [hnodesUp]
        exact List.mem_flatMap.mpr ⟨p, hp, hq⟩
      · rw [← rowAt_internal hpage]
        rw [← expand_subtreeRow] at hord
        exact separated_of_inOrder hp hord
    · refine hpages.nodup_iff.mpr (List.nodup_append'.mpr ⟨hlevelUp.nodup, hnodup, fun x hx hx' => ?_⟩)
      -- a page of this level is higher than those below
      obtain ⟨j, hj, hheightx⟩ := hheight x hx'
      have := (hlevelUp.height_eq x hx).symm.trans hheightx
      simp only [Option.some.injEq] at this
      omega
    · obtain hx | hx := List.mem_append.mp (hpages.mem_iff.mp hx)
      · exact ⟨h + 1, le_rfl, hlevelUp.height_eq x hx⟩
      · obtain ⟨j, hj, hheightx⟩ := hheight x hx
        exact ⟨j, by omega, hheightx⟩

theorem Tower.alternates {h : Nat} (ht : Tower O s height root h level) : Alternates level := by
  induction ht with
  | root => exact ⟨startsSep_nil, trivial⟩
  | down hup hnodes hlevel ih =>
    refine ih.expand fun p hp => ?_
    obtain ⟨child, rest, hpage, -⟩ := hnodes p hp
    rw [rowAt_internal hpage]
    exact alternates_row child rest

/-- Two leaves have a separator between them. -/
theorem pairwise_lt_of_inOrder (halt : Alternates level) (hord : InOrder O (contents s level)) :
    (nodes level).Pairwise fun p q =>
      ∀ a ∈ entriesAt s p, ∀ b ∈ entriesAt s q, O.rk a.1 < O.rk b.1 := by
  induction level with
  | nil => exact .nil
  | cons x level ih =>
    cases x with
    | sep k => exact ih halt (List.pairwise_cons.mp hord).2
    | node p =>
      obtain ⟨-, hrest, hcross⟩ := List.pairwise_append.mp hord
      refine List.pairwise_cons.mpr ⟨fun q hq a ha b hb => ?_, ih halt.2 hrest⟩
      obtain rfl | ⟨k, level, rfl⟩ := halt.1
      · cases hq
      · have hab : b ∈ entries s level := by
          rw [entries_eq_flatMap]
          exact List.mem_flatMap.mpr ⟨q, hq, hb⟩
        have ha' : Item.node a ∈ (entriesAt s p).map (Item.node (κ := ε)) := List.mem_map_of_mem ha
        exact (place_node_le_sep.mp (hcross _ ha' (.sep k) List.mem_cons_self)).trans_le
          (place_sep_le_node.mp ((List.pairwise_cons.mp hrest).1 _ (mem_nodes.mp hab)))

theorem Chain.walk {first : Nat} {ps : List Nat} (hc : Chain s first ps invalidPageId)
    (hvalid : ∀ p ∈ ps, p ≠ invalidPageId) : Walk s first ps := by
  induction ps generalizing first with
  | nil =>
    obtain rfl : first = invalidPageId := hc
    exact .done
  | cons p ps ih =>
    rw [List.forall_mem_cons] at hvalid
    obtain ⟨rfl, es, nx, hpage, hc⟩ := hc
    exact .step hvalid.1 hpage (ih hc hvalid.2)

/-- The first page of a chain of pages that is not empty. -/
theorem Chain.first_eq {first p last : Nat} {ps : List Nat} (hc : Chain s first (p :: ps) last) :
    first = p := hc.1

/-- A tree whose leaves are not on the page whose id means "no page" has its shape. -/
theorem Tree.shape_of_valid (ht : Tree O s height root level) (hvalid : ∀ p ∈ nodes level, p ≠ invalidPageId) :
    ∃ depth, Shaped O s root depth := by
  have hlevel := ht.tower.toLevel
  have hexpand : expand (subtreeRow s 0) level = level := expand_subtreeRow_zero s level
  have hflat : (nodes level).flatMap (pagesUnder s 0) = nodes level := flatMap_pagesUnder_zero s _
  have hleaf : ∀ p ∈ nodes level, Subtree O s root 0 p := fun p hp => by
    obtain ⟨es, nx, hpage, -, hlen, hempty⟩ := ht.leaf p hp
    refine ⟨es, nx, hpage, hlen, fun hes => ?_⟩
    obtain hroot | ⟨-, hseps⟩ := ht.tower.root_cases
    · rw [hroot] at hp
      simpa using hp
    · exact absurd (by rw [hempty hes]; rfl) hseps
  obtain ⟨depth, hsub, honce, hleaves⟩ := ht.tower.subtree (hexpand.symm ▸ ht.inOrder) hleaf
    (hflat.symm ▸ hlevel.nodup) fun x hx => ⟨0, le_rfl, hlevel.height_eq x (hflat ▸ hx)⟩
  rw [hexpand] at hleaves
  refine ⟨depth, hsub, honce, ?_, ?_⟩
  · rw [hleaves]
    exact (pairwise_lt_of_inOrder ht.tower.alternates ht.inOrder).imp
      fun hlt a ha b hb => (hlt a ha b hb).ne
  · obtain ⟨p, after, rfl, hrun⟩ := ht.leftmostLeaf
    obtain ⟨first, hchain⟩ := ht.chain
    obtain rfl : first = p := Chain.first_eq hchain
    exact ⟨first, hrun, hleaves ▸ hchain.walk hvalid⟩

/-! ## Over whole runs -/

section Runs
variable {s : PageFile Int τ} {unique : Bool} {L : List (Int × RID)}

/-- In every state that calls reach without taking the page whose id means "no page", the tree
    has its shape. -/
theorem Run.shaped (h : Run unique NextPageValid TakesValidPage root s L) :
    ∃ depth, Shaped KeyOrder.int s root depth := by
  obtain ⟨height, ⟨level, ht, -⟩, hvalid⟩ := h.leaves_valid
  exact ht.shape_of_valid fun p hp => hvalid p (ht.tower.toLevel.height_eq p hp)

theorem Run.shaped_singleton :
    Run false NextPageValid TakesValidPage 0
      ([.leaf [(5, ⟨0, 0⟩)] invalidPageId] : PageFile Int Unit) [(5, ⟨0, 0⟩)] ∧
    ∃ depth, Shaped KeyOrder.int ([.leaf [(5, ⟨0, 0⟩)] invalidPageId] : PageFile Int Unit) 0 depth := by
  have h : Run false NextPageValid TakesValidPage 0
      ([.leaf [(5, ⟨0, 0⟩)] invalidPageId] : PageFile Int Unit) [(5, ⟨0, 0⟩)] :=
    .call (.insert 5 ⟨0, 0⟩) (.create (s := []) (by decide) rfl) (by decide)
      (by decide : NextPageValid _) rfl
  exact ⟨h, h.shaped⟩

/-- A root leaf on the page whose id means "no page" is not on the way through the leaves. -/
theorem not_shaped_of_invalidRoot : ∃ s : PageFile Int Unit,
    Run false (· = List.replicate invalidPageId .zero) (fun _ _ _ => True) invalidPageId s
        [(1, ⟨0, 0⟩)] ∧
      ∀ depth, ¬Shaped KeyOrder.int s invalidPageId depth := by
  obtain ⟨s, hrun, hpage⟩ := run_invalidRoot
  refine ⟨s, hrun, fun depth hshaped => ?_⟩
  obtain ⟨first, hleft, hwalk⟩ := hshaped.chain
  have hfirst : leftmostLeaf KeyType.int invalidPageId s = .ok first s := hleft
  rw [leftmostLeaf_leaf hpage] at hfirst
  cases hfirst
  cases depth with
  | zero =>
    cases hwalk with
    | step hvalid => exact hvalid rfl
  | succ depth =>
    obtain ⟨child, rest, hinternal, -⟩ := hshaped.subtree
    rw [hpage] at hinternal
    cases hinternal

end Runs

end Minirel.BPlusTree

-- SUMMARY: The invariant of a tree: its shape, its leaves in search order, and the chain through them.
import Minirel.Index.Shape
import Minirel.Lib.SortedRow

/-!
# The invariant of a tree

A tree is its levels together with what its leaves hold. Read from left to right,
the entries of all leaves and all separators of the tree are one row in search
order, which is all that searching needs to know about the separators.
-/

namespace Minirel.BPlusTree

open Row

variable {κ ε τ R : Type} [LinearOrder R] {K : KeyType κ ε}

/-- The entries on a leaf page. -/
def entriesAt (s : PageFile ε τ) (pageId : Nat) : List (ε × RID) :=
  match s[pageId]? with
  | some (.leaf entries _) => entries
  | _ => []

/-- The entries of the leaves of a level and the separators between them. -/
def contents (s : PageFile ε τ) (level : List (Item Nat ε)) : List (Item (ε × RID) ε) :=
  expand (fun p => (entriesAt s p).map .node) level

/-- The entries of a tree, from left to right. -/
def entries (s : PageFile ε τ) (level : List (Item Nat ε)) : List (ε × RID) :=
  nodes (contents s level)

/-- A row of entries and separators in search order. -/
def InOrder (O : KeyOrder K R) (l : List (Item (ε × RID) ε)) : Prop :=
  Sorted (fun x => O.rk x.1) O.rk l

/-- A page that holds a proper leaf of the level. Only a leaf that is the whole
    tree may be empty. -/
def IsLeaf (O : KeyOrder K R) (s : PageFile ε τ) (level : List (Item Nat ε)) (pageId : Nat) :
    Prop :=
  ∃ es nx, s[pageId]? = some (.leaf es nx) ∧ LeafFits O es nx ∧ es.length ≤ maxLeafKeys K ∧
    (es = [] → level = [.node pageId])

/-- Following the next pointers from `first` leads through these leaves to
    `last`. -/
def Chain (s : PageFile ε τ) : Nat → List Nat → Nat → Prop
  | first, [], last => first = last
  | first, p :: ps, last =>
    first = p ∧ ∃ es nx, s[p]? = some (.leaf es nx) ∧ Chain s nx ps last

/-- A tree with its leaf level. Its pages are those with a height. -/
structure Tree (O : KeyOrder K R) (s : PageFile ε τ) (height : Nat → Option Nat) (root : Nat)
    (level : List (Item Nat ε)) : Prop where
  scope : ∀ x j, height x = some j → x < s.length
  tower : Tower O s height root 0 level
  leaf : ∀ p ∈ nodes level, IsLeaf O s level p
  inOrder : InOrder O (contents s level)
  chain : ∃ first, Chain s first (nodes level) invalidPageId

variable {O : KeyOrder K R} {s s' : PageFile ε τ} {height : Nat → Option Nat} {root p : Nat}
  {before after level : List (Item Nat ε)}

@[simp] theorem entriesAt_leaf {pageId nx : Nat} {es : List (ε × RID)}
    (h : s[pageId]? = some (.leaf es nx)) : entriesAt s pageId = es := by
  simp [entriesAt, h]

theorem entriesAt_congr {pageId : Nat} (h : s'[pageId]? = s[pageId]?) :
    entriesAt s' pageId = entriesAt s pageId := by
  simp [entriesAt, h]

@[simp] theorem contents_append (l₁ l₂ : List (Item Nat ε)) :
    contents s (l₁ ++ l₂) = contents s l₁ ++ contents s l₂ := expand_append _ _

@[simp] theorem contents_node (p : Nat) (l : List (Item Nat ε)) :
    contents s (.node p :: l) = (entriesAt s p).map .node ++ contents s l := rfl

@[simp] theorem contents_sep (k : ε) (l : List (Item Nat ε)) :
    contents s (.sep k :: l) = .sep k :: contents s l := rfl

@[simp] theorem contents_nil : contents s ([] : List (Item Nat ε)) = [] := rfl

theorem contents_congr (h : ∀ x ∈ nodes level, s'[x]? = s[x]?) :
    contents s' level = contents s level :=
  expand_congr fun x hx => by rw [entriesAt_congr (h x hx)]

@[simp] theorem nodes_map_node (es : List (ε × RID)) :
    nodes (es.map .node : List (Item (ε × RID) ε)) = es := by
  induction es with
  | nil => rfl
  | cons x es ih => simp [ih]

@[simp] theorem seps_map_node (es : List (ε × RID)) :
    seps (es.map .node : List (Item (ε × RID) ε)) = [] := by
  induction es with
  | nil => rfl
  | cons x es ih => simp [ih]

@[simp] theorem seps_contents (level : List (Item Nat ε)) : seps (contents s level) = seps level := by
  induction level with
  | nil => rfl
  | cons x level ih => cases x <;> simp [ih]

theorem entries_eq_flatMap (level : List (Item Nat ε)) :
    entries s level = (nodes level).flatMap (entriesAt s) := by
  induction level with
  | nil => rfl
  | cons x level ih =>
    unfold entries at ih ⊢
    cases x <;> simp [ih]

theorem IsLeaf.congr {pageId : Nat} (hl : IsLeaf O s level pageId) (h : s'[pageId]? = s[pageId]?) :
    IsLeaf O s' level pageId := by
  obtain ⟨es, nx, hpage, hrest⟩ := hl
  exact ⟨es, nx, h.trans hpage, hrest⟩

theorem Chain.congr {first last : Nat} {ps : List Nat} (hc : Chain s first ps last)
    (h : ∀ x ∈ ps, s'[x]? = s[x]?) : Chain s' first ps last := by
  induction ps generalizing first with
  | nil => exact hc
  | cons p ps ih =>
    rw [List.forall_mem_cons] at h
    obtain ⟨rfl, es, nx, hp, hc⟩ := hc
    exact ⟨rfl, es, nx, h.1.trans hp, ih hc h.2⟩

theorem chain_append {first last : Nat} {ps qs : List Nat} :
    Chain s first (ps ++ qs) last ↔ ∃ mid, Chain s first ps mid ∧ Chain s mid qs last := by
  induction ps generalizing first with
  | nil => simp [Chain]
  | cons p ps ih =>
    simp only [List.cons_append, Chain, ih]
    constructor
    · rintro ⟨rfl, es, nx, hp, mid, h₁, h₂⟩
      exact ⟨mid, ⟨rfl, es, nx, hp, h₁⟩, h₂⟩
    · rintro ⟨mid, ⟨rfl, es, nx, hp, h₁⟩, h₂⟩
      exact ⟨rfl, es, nx, hp, mid, h₁, h₂⟩

theorem Tree.stored (ht : Tree O s height root level) : ∀ a ∈ entries s level, O.Stored a.1 := by
  intro a ha
  rw [entries_eq_flatMap, List.mem_flatMap] at ha
  obtain ⟨p, hp, ha⟩ := ha
  obtain ⟨es, nx, hpage, hfits, -⟩ := ht.leaf p hp
  rw [entriesAt_leaf hpage] at ha
  exact hfits.stored a ha

theorem Tree.entries_sorted (ht : Tree O s height root level) :
    (entries s level).Pairwise fun a b => O.rk a.1 ≤ O.rk b.1 := Sorted.nodes ht.inOrder

/-- A level has no more nodes than the file has pages. -/
theorem Level.length_le {h : Nat} (hl : Level s height h level) :
    (nodes level).length ≤ s.length := by
  have hsub : nodes level ⊆ List.range s.length := fun x hx =>
    List.mem_range.mpr (hl.lt_length x hx)
  simpa using (hl.nodup.subperm hsub).length_le

/-- A tree is untouched where its pages are. -/
theorem Tree.congr (ht : Tree O s height root level)
    (hpages : ∀ x j, height x = some j → s'[x]? = s[x]?) (hlen : s.length ≤ s'.length) :
    Tree O s' height root level ∧ entries s' level = entries s level := by
  have hsame : ∀ x ∈ nodes level, s'[x]? = s[x]? := fun x hx =>
    hpages x 0 (ht.tower.toLevel.height_eq x hx)
  have hcontents : contents s' level = contents s level := contents_congr hsame
  refine ⟨⟨fun x j hx => (ht.scope x j hx).trans_le hlen, ht.tower.congr hpages hlen,
    fun p hp => (ht.leaf p hp).congr (hsame p hp), hcontents ▸ ht.inOrder, ?_⟩, ?_⟩
  · obtain ⟨first, hchain⟩ := ht.chain
    exact ⟨first, hchain.congr hsame⟩
  · rw [entries, entries, hcontents]

/-! ## Rewriting a window of leaves -/

/-- Replacing some neighbouring leaves by others that link up in the same way. -/
theorem Chain.window {first last : Nat} {ps qs ws ws' : List Nat}
    (hc : Chain s first (ps ++ ws ++ qs) last) (hsame : ∀ x ∈ ps ++ qs, s'[x]? = s[x]?)
    (hw : ∀ a b, Chain s a ws b → Chain s' a ws' b) :
    Chain s' first (ps ++ ws' ++ qs) last := by
  rw [List.forall_mem_append] at hsame
  obtain ⟨b, hc, hq⟩ := chain_append.mp hc
  obtain ⟨a, hp, hws⟩ := chain_append.mp hc
  exact chain_append.mpr ⟨b, chain_append.mpr ⟨a, hp.congr hsame.1, hw a b hws⟩,
    hq.congr hsame.2⟩

/-- An operation that rewrites some neighbouring leaves, and nodes above them. -/
theorem Tree.window {P : Nat → Prop} {height' : Nat → Option Nat} {root' : Nat}
    {win win' : List (Item Nat ε)} (ht : Tree O s height root (before ++ win ++ after))
    (hg : Grows P s height s' height')
    (htower : Tower O s' height' root' 0 (before ++ win' ++ after))
    (hsame : ∀ x ∈ nodes (before ++ after), s'[x]? = s[x]?) (hwin : nodes win ≠ [])
    (hleaf : ∀ x ∈ nodes win', IsLeaf O s' (before ++ win' ++ after) x)
    (hord : InOrder O (contents s before ++ contents s' win' ++ contents s after))
    (hchain : ∀ a b, Chain s a (nodes win) b → Chain s' a (nodes win') b) :
    Tree O s' height' root' (before ++ win' ++ after) ∧
      entries s' (before ++ win' ++ after) =
        entries s before ++ entries s' win' ++ entries s after := by
  have hbefore : contents s' before = contents s before :=
    contents_congr fun x hx => hsame x (by simp [hx])
  have hafter : contents s' after = contents s after :=
    contents_congr fun x hx => hsame x (by simp [hx])
  have hcontents : contents s' (before ++ win' ++ after) =
      contents s before ++ contents s' win' ++ contents s after := by
    simp only [contents_append, hbefore, hafter]
  refine ⟨⟨fun _ _ => hg.scope ht.scope, htower, fun x hx => ?_, hcontents ▸ hord, ?_⟩, ?_⟩
  · have hcases : x ∈ nodes win' ∨ x ∈ nodes (before ++ after) := by
      simp only [nodes_append, List.mem_append] at hx ⊢
      tauto
    obtain hx | hx := hcases
    · exact hleaf x hx
    · have hmem : x ∈ nodes (before ++ win ++ after) := by
        simp only [nodes_append, List.mem_append] at hx ⊢
        tauto
      obtain ⟨es, nx, hpage, hfits, hlen, hempty⟩ := ht.leaf x hmem
      refine ⟨es, nx, (hsame x hx).trans hpage, hfits, hlen, fun hes => ?_⟩
      -- an empty leaf would be the whole of the old level
      exfalso
      have hone := congrArg (fun l => (nodes l).length) (hempty hes)
      have hpos := List.length_pos_of_mem hx
      have hpos' := List.length_pos_iff.mpr hwin
      simp only [nodes_append, List.length_append, nodes_node, nodes_nil, List.length_cons,
        List.length_nil] at hone hpos
      omega
  · obtain ⟨first, hc⟩ := ht.chain
    refine ⟨first, ?_⟩
    simp only [nodes_append] at hc ⊢
    exact hc.window (by simpa using hsame) hchain
  · simp only [entries, hcontents, nodes_append]

/-- An operation that rewrites one leaf. -/
theorem Tree.set_leaf {path : List Nat} {es es' : List (ε × RID)} {nx : Nat}
    (ht : Tree O s height root (before ++ .node p :: after))
    (hf : Focus O s height root 0 path before p after) (hp : s[p]? = some (.leaf es nx))
    (hfits : LeafFits O es' nx) (hlen : es'.length ≤ maxLeafKeys K)
    (hempty : es' = [] → before ++ .node p :: after = [.node p])
    (hord : InOrder O (contents s before ++ es'.map .node ++ contents s after)) :
    Tree O (s.set p (.leaf es' nx)) height root (before ++ .node p :: after) ∧
      entries (s.set p (.leaf es' nx)) (before ++ .node p :: after) =
        entries s before ++ es' ++ entries s after := by
  have hself : (s.set p (.leaf es' nx))[p]? = some (.leaf es' nx) :=
    List.getElem?_set_self (hf.toLevel.lt_length p (by simp))
  have heq : before ++ .node p :: after = before ++ [.node p] ++ after := by simp
  rw [heq] at ht hempty ⊢
  have hg : Grows (fun _ => True) s height (s.set p (.leaf es' nx)) height :=
    .set (hf.toLevel.height_eq p (by simp)) trivial _
  obtain ⟨htree, hent⟩ := ht.window hg (heq ▸ (hf.set_page (.leaf es' nx)).tower)
    (fun x hx => hf.toLevel.getElem?_set hx _) (by simp)
    (by
      simp only [nodes_node, nodes_nil, List.mem_singleton, forall_eq]
      exact ⟨_, _, hself, hfits, hlen, hempty⟩)
    (by simpa [entriesAt_leaf hself] using hord)
    (by
      rintro a b ⟨rfl, es, nx', hpage, rfl⟩
      rw [hp] at hpage
      cases hpage
      exact ⟨rfl, _, _, hself, rfl⟩)
  refine ⟨htree, hent.trans ?_⟩
  simp [entries, entriesAt_leaf hself]

end Minirel.BPlusTree

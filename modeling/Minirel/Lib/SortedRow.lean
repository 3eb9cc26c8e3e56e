-- SUMMARY: Rows in search order: nodes below the next separator, and at or above the one before.
import Minirel.Lib.Row
import Mathlib.Data.Prod.Lex
import Mathlib.Order.BooleanAlgebra.Basic

/-!
# Rows in search order

Nodes and separators are ranked in one linear order, in which a separator stands
just before the nodes of its own rank. A row is in search order when it is sorted
by that order.
-/

namespace Row

variable {α β κ R : Type} [LinearOrder R]

section
variable (f : α → R) (g : κ → R)

/-- The place of an item in the order. -/
def place : Item α κ → R ×ₗ Bool
  | .node a => toLex (f a, true)
  | .sep k => toLex (g k, false)

/-- A row in search order. -/
def Sorted (l : List (Item α κ)) : Prop := l.Pairwise fun x y => place f g x ≤ place f g y

end

variable {f : α → R} {g : κ → R} {l l₁ l₂ : List (Item α κ)}

@[simp] theorem place_node_le_node {a b : α} :
    place f g (.node a) ≤ place f g (.node b) ↔ f a ≤ f b := by
  simp [place, Prod.Lex.toLex_le_toLex, ← le_iff_lt_or_eq]

@[simp] theorem place_node_le_sep {a : α} {k : κ} :
    place f g (.node a) ≤ place f g (.sep k) ↔ f a < g k := by
  simp [place, Prod.Lex.toLex_le_toLex]

@[simp] theorem place_sep_le_node {a : α} {k : κ} :
    place f g (.sep k) ≤ place f g (.node a) ↔ g k ≤ f a := by
  simp [place, Prod.Lex.toLex_le_toLex, ← le_iff_lt_or_eq]

@[simp] theorem place_sep_le_sep {k k' : κ} :
    place f g (.sep k) ≤ place f g (.sep k') ↔ g k ≤ g k' := by
  simp [place, Prod.Lex.toLex_le_toLex, ← le_iff_lt_or_eq]

theorem Sorted.sublist (h : Sorted f g l₂) (hs : l₁.Sublist l₂) : Sorted f g l₁ :=
  List.Pairwise.sublist hs h

theorem Sorted.nodes (h : Sorted f g l) : (Row.nodes l).Pairwise fun a b => f a ≤ f b := by
  refine List.Pairwise.filterMap _ (fun x y hxy a ha b hb => ?_) h
  cases x <;> cases y <;> cases ha <;> cases hb
  exact place_node_le_node.mp hxy

theorem Sorted.seps (h : Sorted f g l) : (Row.seps l).Pairwise fun a b => g a ≤ g b := by
  refine List.Pairwise.filterMap _ (fun x y hxy a ha b hb => ?_) h
  cases x <;> cases y <;> cases ha <;> cases hb
  exact place_sep_le_sep.mp hxy

/-- A new node, between what is at most and what is above it. -/
theorem Sorted.insert_node {x : α} (h : Sorted f g (l₁ ++ l₂))
    (hn₁ : ∀ a ∈ Row.nodes l₁, f a ≤ f x) (hs₁ : ∀ k ∈ Row.seps l₁, g k ≤ f x)
    (hn₂ : ∀ a ∈ Row.nodes l₂, f x ≤ f a) (hs₂ : ∀ k ∈ Row.seps l₂, f x < g k) :
    Sorted f g (l₁ ++ .node x :: l₂) := by
  obtain ⟨h₁, h₂, h₁₂⟩ := List.pairwise_append.mp h
  refine List.pairwise_append.mpr ⟨h₁, List.pairwise_cons.mpr ⟨fun y hy => ?_, h₂⟩, ?_⟩
  · cases y with
    | node a => exact place_node_le_node.mpr (hn₂ a (mem_nodes.mpr hy))
    | sep k => exact place_node_le_sep.mpr (hs₂ k (mem_seps.mpr hy))
  · intro y hy z hz
    obtain rfl | hz := List.mem_cons.mp hz
    · cases y with
      | node a => exact place_node_le_node.mpr (hn₁ a (mem_nodes.mpr hy))
      | sep k => exact place_sep_le_node.mpr (hs₁ k (mem_seps.mpr hy))
    · exact h₁₂ y hy z hz

/-- A new separator, just before a node that is above all nodes before it. -/
theorem Sorted.insert_sep {x : α} {k : κ} (h : Sorted f g (l₁ ++ .node x :: l₂)) (hk : g k = f x)
    (hlt : ∀ a ∈ Row.nodes l₁, f a < f x) : Sorted f g (l₁ ++ .sep k :: .node x :: l₂) := by
  obtain ⟨h₁, h₂, h₁₂⟩ := List.pairwise_append.mp h
  have hkx : place f g (.sep k) ≤ place f g (.node x) := place_sep_le_node.mpr hk.le
  refine List.pairwise_append.mpr ⟨h₁, List.pairwise_cons.mpr ⟨fun y hy => ?_, h₂⟩, ?_⟩
  · obtain rfl | hy := List.mem_cons.mp hy
    · exact hkx
    · exact hkx.trans ((List.pairwise_cons.mp h₂).1 y hy)
  · intro y hy z hz
    obtain rfl | hz := List.mem_cons.mp hz
    · cases y with
      | node a => exact place_node_le_sep.mpr (hk ▸ hlt a (mem_nodes.mpr hy))
      | sep k' =>
        have := place_sep_le_node.mp (h₁₂ _ hy (.node x) (by simp))
        exact place_sep_le_sep.mpr (hk ▸ this)
    · exact h₁₂ y hy z hz

/-- Nodes that stand before a separator are below any bound on the separators. -/
theorem Sorted.nodes_lt {r : R} (h : Sorted f g l) (he : EndsSep l)
    (hle : ∀ k ∈ Row.seps l, g k ≤ r) : ∀ a ∈ Row.nodes l, f a < r := by
  obtain rfl | ⟨l, last, rfl⟩ := he
  · simp
  · intro a ha
    have ha' : .node a ∈ l := by simpa [mem_nodes] using ha
    have := (List.pairwise_append.mp h).2.2 _ ha' (.sep last) (by simp)
    exact (place_node_le_sep.mp this).trans_le (hle last (by simp))

/-- Nodes that stand before a separator are below every node after it. -/
theorem Sorted.nodes_lt_node {x : α} (h : Sorted f g (l₁ ++ l₂)) (he : EndsSep l₁)
    (hx : .node x ∈ l₂) : ∀ a ∈ Row.nodes l₁, f a < f x :=
  Sorted.nodes_lt (h.sublist (List.sublist_append_left _ _)) he fun k hk =>
    place_sep_le_node.mp ((List.pairwise_append.mp h).2.2 (.sep k) (mem_seps.mp hk) _ hx)

/-- Nodes that stand after a separator are above any bound on the separators. -/
theorem Sorted.lt_nodes {r : R} (h : Sorted f g l) (hs : StartsSep l)
    (hgt : ∀ k ∈ Row.seps l, r < g k) : ∀ a ∈ Row.nodes l, r < f a := by
  obtain rfl | ⟨first, l, rfl⟩ := hs
  · simp
  · intro a ha
    have ha' : .node a ∈ l := by simpa [mem_nodes] using ha
    exact (hgt first (by simp)).trans_le
      (place_sep_le_node.mp ((List.pairwise_cons.mp h).1 _ ha'))

end Row

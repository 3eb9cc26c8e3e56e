-- SUMMARY: Rows: nodes with separators between them, their zippers, and replacing each node by a row.
import Mathlib.Data.List.Basic
import Mathlib.Data.List.Nodup
import Mathlib.Data.List.Induction

/-!
# Rows of nodes and separators

One level of a search tree, read from left to right, is a row: its nodes with a
separator between any two neighbours. An internal node is itself a short row, of
its children. `expand` replaces every node of a row by a row, which is how the
level below is read off a level.
-/

namespace Row

/-- An element of a row. -/
inductive Item (α κ : Type) where
  | node (a : α)
  | sep (k : κ)
  deriving DecidableEq, Repr

variable {α β κ : Type}

def Item.node? : Item α κ → Option α
  | node a => some a
  | sep _ => none

def Item.sep? : Item α κ → Option κ
  | node _ => none
  | sep k => some k

def nodes (l : List (Item α κ)) : List α := l.filterMap Item.node?

def seps (l : List (Item α κ)) : List κ := l.filterMap Item.sep?

@[simp] theorem nodes_nil : nodes ([] : List (Item α κ)) = [] := rfl
@[simp] theorem nodes_node (a : α) (l : List (Item α κ)) :
    nodes (.node a :: l) = a :: nodes l := rfl
@[simp] theorem nodes_sep (k : κ) (l : List (Item α κ)) : nodes (.sep k :: l) = nodes l := rfl
@[simp] theorem nodes_append (l₁ l₂ : List (Item α κ)) :
    nodes (l₁ ++ l₂) = nodes l₁ ++ nodes l₂ := List.filterMap_append
@[simp] theorem seps_nil : seps ([] : List (Item α κ)) = [] := rfl
@[simp] theorem seps_node (a : α) (l : List (Item α κ)) : seps (.node a :: l) = seps l := rfl
@[simp] theorem seps_sep (k : κ) (l : List (Item α κ)) : seps (.sep k :: l) = k :: seps l := rfl
@[simp] theorem seps_append (l₁ l₂ : List (Item α κ)) :
    seps (l₁ ++ l₂) = seps l₁ ++ seps l₂ := List.filterMap_append

theorem mem_nodes {a : α} {l : List (Item α κ)} : a ∈ nodes l ↔ .node a ∈ l := by
  induction l with
  | nil => simp
  | cons x l ih => cases x <;> simp [ih]

theorem mem_seps {k : κ} {l : List (Item α κ)} : k ∈ seps l ↔ .sep k ∈ l := by
  induction l with
  | nil => simp
  | cons x l ih => cases x <;> simp [ih]

/-- The nodes of a row, one of them set apart. -/
theorem mem_nodes_focus {a b : α} {l₁ l₂ : List (Item α κ)} :
    b ∈ nodes (l₁ ++ .node a :: l₂) ↔ b = a ∨ b ∈ nodes (l₁ ++ l₂) := by
  simp only [nodes_append, nodes_node, List.mem_append, List.mem_cons]
  exact or_left_comm

/-! ## Zippers

A node in focus, what stands before it (each node with the separator after it)
and what stands after it (each node with the separator before it). -/

def left (ls : List (α × κ)) : List (Item α κ) := ls.flatMap fun x => [.node x.1, .sep x.2]

def right (rs : List (κ × α)) : List (Item α κ) := rs.flatMap fun x => [.sep x.1, .node x.2]

@[simp] theorem left_nil : left ([] : List (α × κ)) = [] := rfl
@[simp] theorem left_cons (x : α × κ) (ls : List (α × κ)) :
    left (x :: ls) = .node x.1 :: .sep x.2 :: left ls := rfl
@[simp] theorem left_append (l₁ l₂ : List (α × κ)) : left (l₁ ++ l₂) = left l₁ ++ left l₂ :=
  List.flatMap_append
@[simp] theorem right_nil : right ([] : List (κ × α)) = [] := rfl
@[simp] theorem right_cons (x : κ × α) (rs : List (κ × α)) :
    right (x :: rs) = .sep x.1 :: .node x.2 :: right rs := rfl
@[simp] theorem right_append (r₁ r₂ : List (κ × α)) :
    right (r₁ ++ r₂) = right r₁ ++ right r₂ := List.flatMap_append

@[simp] theorem nodes_left (ls : List (α × κ)) : nodes (left ls) = ls.map (·.1) := by
  induction ls with
  | nil => rfl
  | cons x ls ih => simp [ih]

@[simp] theorem seps_left (ls : List (α × κ)) : seps (left ls) = ls.map (·.2) := by
  induction ls with
  | nil => rfl
  | cons x ls ih => simp [ih]

@[simp] theorem nodes_right (rs : List (κ × α)) : nodes (right rs) = rs.map (·.2) := by
  induction rs with
  | nil => rfl
  | cons x rs ih => simp [ih]

@[simp] theorem seps_right (rs : List (κ × α)) : seps (right rs) = rs.map (·.1) := by
  induction rs with
  | nil => rfl
  | cons x rs ih => simp [ih]

theorem left_injective : Function.Injective (left : List (α × κ) → List (Item α κ)) := by
  intro l₁ l₂ h
  induction l₁ generalizing l₂ with
  | nil => cases l₂ with
    | nil => rfl
    | cons y l₂ => cases h
  | cons x l₁ ih => cases l₂ with
    | nil => cases h
    | cons y l₂ =>
      simp only [left_cons, List.cons.injEq, Item.node.injEq, Item.sep.injEq] at h
      rw [Prod.ext h.1 h.2.1, ih h.2.2]

theorem right_injective : Function.Injective (right : List (κ × α) → List (Item α κ)) := by
  intro r₁ r₂ h
  induction r₁ generalizing r₂ with
  | nil => cases r₂ with
    | nil => rfl
    | cons y r₂ => cases h
  | cons x r₁ ih => cases r₂ with
    | nil => cases h
    | cons y r₂ =>
      simp only [right_cons, List.cons.injEq, Item.node.injEq, Item.sep.injEq] at h
      rw [Prod.ext h.1 h.2.1, ih h.2.2]

/-- The row that starts with `a` and goes on with `rest`. -/
def row (a : α) (rest : List (κ × α)) : List (Item α κ) := .node a :: right rest

/-- The first node of a zipper's row. -/
def zipFirst : List (α × κ) → α → α
  | [], a => a
  | (b, _) :: _, _ => b

/-- The rest of a zipper's row. -/
def zipRest : List (α × κ) → α → List (κ × α) → List (κ × α)
  | [], _, rs => rs
  | (_, k) :: ls, a, rs => (k, zipFirst ls a) :: zipRest ls a rs

theorem row_zip (ls : List (α × κ)) (a : α) (rs : List (κ × α)) :
    row (zipFirst ls a) (zipRest ls a rs) = left ls ++ .node a :: right rs := by
  induction ls with
  | nil => rfl
  | cons x ls ih => simpa [row, zipFirst, zipRest] using ih

theorem map_fst_zipRest (ls : List (α × κ)) (a : α) (rs : List (κ × α)) :
    (zipRest ls a rs).map (·.1) = ls.map (·.2) ++ rs.map (·.1) := by
  induction ls with
  | nil => rfl
  | cons x ls ih => simp [zipRest, ih]

theorem cons_map_snd_zipRest (ls : List (α × κ)) (a : α) (rs : List (κ × α)) :
    zipFirst ls a :: (zipRest ls a rs).map (·.2) = ls.map (·.1) ++ a :: rs.map (·.2) := by
  induction ls with
  | nil => rfl
  | cons x ls ih => simpa [zipRest] using ⟨rfl, ih⟩

@[simp] theorem length_zipRest (ls : List (α × κ)) (a : α) (rs : List (κ × α)) :
    (zipRest ls a rs).length = ls.length + rs.length := by
  simpa using congrArg List.length (map_fst_zipRest ls a rs)

theorem forall_zipRest_fst {P : κ → Prop} {ls : List (α × κ)} {a : α} {rs : List (κ × α)} :
    (∀ x ∈ zipRest ls a rs, P x.1) ↔ (∀ x ∈ ls, P x.2) ∧ ∀ x ∈ rs, P x.1 := by
  have h : ∀ l : List (κ × α), (∀ x ∈ l, P x.1) ↔ ∀ k ∈ l.map (·.1), P k := fun l => by
    simp only [List.forall_mem_map]
  rw [h, map_fst_zipRest]
  simp only [List.forall_mem_append, List.forall_mem_map]

theorem forall_zip_snd {P : α → Prop} {ls : List (α × κ)} {a : α} {rs : List (κ × α)} :
    (P (zipFirst ls a) ∧ ∀ x ∈ zipRest ls a rs, P x.2) ↔
      (∀ x ∈ ls, P x.1) ∧ P a ∧ ∀ x ∈ rs, P x.2 := by
  have h : ∀ (b : α) (l : List (κ × α)),
      (P b ∧ ∀ x ∈ l, P x.2) ↔ ∀ c ∈ b :: l.map (·.2), P c := fun b l => by
    simp only [List.forall_mem_cons, List.forall_mem_map]
  rw [h, cons_map_snd_zipRest]
  simp only [List.forall_mem_append, List.forall_mem_cons, List.forall_mem_map]

/-- Every position of a row can be brought into focus. -/
theorem exists_zip (a : α) (rest : List (κ × α)) {i : Nat} (hi : i ≤ rest.length) :
    ∃ ls b rs, ls.length = i ∧ a = zipFirst ls b ∧ rest = zipRest ls b rs := by
  induction i generalizing a rest with
  | zero => exact ⟨[], a, rest, rfl, rfl, rfl⟩
  | succ i ih =>
    cases rest with
    | nil => simp at hi
    | cons x rest =>
      obtain ⟨ls, b, rs, hlen, hfirst, hrest⟩ := ih x.2 rest (by simpa using hi)
      exact ⟨(a, x.1) :: ls, b, rs, by simp [hlen], rfl, by simp [zipRest, ← hfirst, ← hrest]⟩

/-- A zipper whose focus has a left neighbour is the zipper of that neighbour. -/
theorem zip_snoc (ls : List (α × κ)) (b : α) (k : κ) (a : α) (rs : List (κ × α)) :
    zipFirst (ls ++ [(b, k)]) a = zipFirst ls b ∧
      zipRest (ls ++ [(b, k)]) a rs = zipRest ls b ((k, a) :: rs) := by
  induction ls with
  | nil => exact ⟨rfl, rfl⟩
  | cons x ls ih => exact ⟨rfl, by simp [zipRest, ih.1, ih.2]⟩

/-- Two rows with a separator between them, as one row. -/
theorem row_append_sep (a : α) (r₁ : List (κ × α)) (k : κ) (b : α) (r₂ : List (κ × α)) :
    row a r₁ ++ .sep k :: row b r₂ = row a (r₁ ++ (k, b) :: r₂) := by
  simp [row]

/-! ## Expanding the nodes of a row -/

/-- Replace each node by a row. -/
def expand (f : α → List (Item β κ)) (l : List (Item α κ)) : List (Item β κ) :=
  l.flatMap fun
    | .node a => f a
    | .sep k => [.sep k]

section Expand
variable {f g : α → List (Item β κ)}

@[simp] theorem expand_nil : expand f ([] : List (Item α κ)) = [] := rfl
@[simp] theorem expand_node (a : α) (l : List (Item α κ)) :
    expand f (.node a :: l) = f a ++ expand f l := rfl
@[simp] theorem expand_sep (k : κ) (l : List (Item α κ)) :
    expand f (.sep k :: l) = .sep k :: expand f l := rfl
@[simp] theorem expand_append (l₁ l₂ : List (Item α κ)) :
    expand f (l₁ ++ l₂) = expand f l₁ ++ expand f l₂ := List.flatMap_append

theorem expand_congr {l : List (Item α κ)} (h : ∀ a ∈ nodes l, f a = g a) :
    expand f l = expand g l := by
  induction l with
  | nil => rfl
  | cons x l ih => cases x <;> simp_all

theorem mem_expand {l : List (Item α κ)} {x : Item β κ} :
    x ∈ expand f l ↔ (∃ a ∈ nodes l, x ∈ f a) ∨ ∃ k ∈ seps l, x = .sep k := by
  induction l with
  | nil => simp
  | cons y l ih =>
    cases y with
    | node a => simp [ih, or_assoc]
    | sep k => simp [ih, or_left_comm]

theorem mem_nodes_expand {l : List (Item α κ)} {b : β} :
    b ∈ nodes (expand f l) ↔ ∃ a ∈ nodes l, b ∈ nodes (f a) := by
  simp [mem_nodes, mem_expand]

/-- The separators of a row stay when its nodes are expanded. -/
theorem seps_sublist_expand (l : List (Item α κ)) : (seps l).Sublist (seps (expand f l)) := by
  induction l with
  | nil => simp
  | cons x l ih =>
    cases x with
    | node a => simpa using ih.trans (List.sublist_append_right _ _)
    | sep k => simpa using ih

end Expand

/-! ## Where a row ends in a separator -/

/-- Nothing, or something that ends in a separator: what stands before a node. -/
def EndsSep (l : List (Item α κ)) : Prop := l = [] ∨ ∃ l' k, l = l' ++ [.sep k]

/-- Nothing, or something that starts with a separator: what stands after a node. -/
def StartsSep (l : List (Item α κ)) : Prop := l = [] ∨ ∃ k l', l = .sep k :: l'

theorem endsSep_nil : EndsSep ([] : List (Item α κ)) := .inl rfl

theorem startsSep_nil : StartsSep ([] : List (Item α κ)) := .inl rfl

theorem endsSep_left (ls : List (α × κ)) : EndsSep (left ls) := by
  induction ls using List.reverseRecOn with
  | nil => exact endsSep_nil
  | append_singleton ls x _ => exact .inr ⟨left ls ++ [.node x.1], x.2, by simp⟩

theorem startsSep_right (rs : List (κ × α)) : StartsSep (right rs) := by
  cases rs with
  | nil => exact startsSep_nil
  | cons x rs => exact .inr ⟨x.1, .node x.2 :: right rs, rfl⟩

theorem EndsSep.expand {f : α → List (Item β κ)} {l : List (Item α κ)} (h : EndsSep l) :
    EndsSep (expand f l) := by
  obtain rfl | ⟨l', k, rfl⟩ := h
  · exact endsSep_nil
  · exact .inr ⟨Row.expand f l', k, by simp⟩

theorem StartsSep.expand {f : α → List (Item β κ)} {l : List (Item α κ)} (h : StartsSep l) :
    StartsSep (expand f l) := by
  obtain rfl | ⟨k, l', rfl⟩ := h
  · exact startsSep_nil
  · exact .inr ⟨k, Row.expand f l', by simp⟩

theorem EndsSep.append {l₁ l₂ : List (Item α κ)} (h₁ : EndsSep l₁) (h₂ : EndsSep l₂) :
    EndsSep (l₁ ++ l₂) := by
  obtain rfl | ⟨l', k, rfl⟩ := h₂
  · simpa using h₁
  · exact .inr ⟨l₁ ++ l', k, by simp⟩

theorem StartsSep.append {l₁ l₂ : List (Item α κ)} (h₁ : StartsSep l₁) (h₂ : StartsSep l₂) :
    StartsSep (l₁ ++ l₂) := by
  obtain rfl | ⟨k, l', rfl⟩ := h₁
  · simpa using h₂
  · exact .inr ⟨k, l' ++ l₂, by simp⟩

/-! ## Rows without neighbouring nodes -/

/-- Behind every node comes a separator or the end. -/
def Alternates : List (Item α κ) → Prop
  | [] => True
  | .sep _ :: l => Alternates l
  | .node _ :: l => StartsSep l ∧ Alternates l

theorem Alternates.append {l₁ l₂ : List (Item α κ)} (h₁ : Alternates l₁) (h₂ : Alternates l₂)
    (hs : StartsSep l₂) : Alternates (l₁ ++ l₂) := by
  induction l₁ with
  | nil => exact h₂
  | cons x l₁ ih =>
    cases x with
    | node a => exact ⟨h₁.1.append hs, ih h₁.2⟩
    | sep k => exact ih h₁

theorem alternates_row (a : α) (rest : List (κ × α)) : Alternates (row a rest) := by
  induction rest generalizing a with
  | nil => exact ⟨startsSep_nil, trivial⟩
  | cons x rest ih => exact ⟨startsSep_right _, ih x.2⟩

theorem Alternates.expand {f : α → List (Item β κ)} {l : List (Item α κ)} (h : Alternates l)
    (hf : ∀ a ∈ nodes l, Alternates (f a)) : Alternates (expand f l) := by
  induction l with
  | nil => trivial
  | cons x l ih =>
    cases x with
    | node a =>
      rw [nodes_node, List.forall_mem_cons] at hf
      exact hf.1.append (ih h.2 hf.2) h.1.expand
    | sep k => exact ih h hf

end Row

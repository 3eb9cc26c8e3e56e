-- SUMMARY: Groups of a list by a relation, in order of first appearance.
import Mathlib.Algebra.GroupWithZero.Nat
import Mathlib.Data.List.Flatten

/-!
# Groups

The elements of a list are put into groups one after the other: an element joins the first
group whose first member it is like, or starts a group of its own. The relation need not be
reflexive. An element that is not like itself has a group to itself.
-/

namespace Minirel

variable {α : Type} {same : α → α → Prop} {xs : List α} {groups : List (α × List α)}

/-- The members of a group, the first one and the others. -/
def members (g : α × List α) : List α := g.1 :: g.2

/-- An element is put into its group. -/
def place (same : α → α → Prop) [DecidableRel same] (x : α) : List (α × List α) → List (α × List α)
  | [] => [(x, [])]
  | g :: gs => if same g.1 x then (g.1, g.2 ++ [x]) :: gs else g :: place same x gs

/-- The groups hold the elements of a list, each of them in one group. -/
structure IsGrouping (same : α → α → Prop) (xs : List α) (groups : List (α × List α)) : Prop where
  perm : (groups.flatMap members).Perm xs
  alike : ∀ g ∈ groups, ∀ x ∈ g.2, same g.1 x
  apart : groups.Pairwise fun g g' => ∀ x ∈ members g, ∀ y ∈ members g', ¬same x y
  /-- The groups are in the order in which their first members appear ... -/
  firsts : (groups.map (·.1)).Sublist xs
  /-- ... and so are the members of each. -/
  sublist : ∀ g ∈ groups, (members g).Sublist xs

theorem isGrouping_nil (same : α → α → Prop) : IsGrouping same [] [] :=
  ⟨.refl _, nofun, .nil, .slnil, nofun⟩

theorem IsGrouping.length_eq (h : IsGrouping same xs groups) :
    (groups.map fun g => (members g).length).sum = xs.length := by
  rw [← h.perm.length_eq, List.length_flatMap]

section
variable [DecidableRel same] {x : α}

theorem flatMap_place (same : α → α → Prop) [DecidableRel same] (x : α) (groups : List (α × List α)) :
    ((place same x groups).flatMap members).Perm (groups.flatMap members ++ [x]) := by
  induction groups with
  | nil => exact .refl _
  | cons g groups ih =>
    rw [place]
    split
    · simp only [List.flatMap_cons, members, List.cons_append, List.append_assoc, List.nil_append]
      exact ((@List.perm_append_comm _ [x] _).append_left g.2).cons g.1
    · simp only [List.flatMap_cons, List.append_assoc]
      exact ih.append_left _

/-- The group an element is put into: a new one, or one with `x` added at its end. -/
theorem mem_place {g : α × List α} (hg : g ∈ place same x groups) :
    g ∈ groups ∨ g = (x, []) ∨ ∃ g₀ ∈ groups, same g₀.1 x ∧ g = (g₀.1, g₀.2 ++ [x]) := by
  induction groups with
  | nil => exact .inr (.inl (List.mem_singleton.mp hg))
  | cons g₁ groups ih =>
    rw [place] at hg
    split at hg
    · rename_i hsame
      obtain rfl | hg := List.mem_cons.mp hg
      · exact .inr (.inr ⟨g₁, List.mem_cons_self, hsame, rfl⟩)
      · exact .inl (List.mem_cons_of_mem _ hg)
    · obtain rfl | hg := List.mem_cons.mp hg
      · exact .inl List.mem_cons_self
      · obtain hg | rfl | ⟨g₀, hg₀, hsame, rfl⟩ := ih hg
        · exact .inl (List.mem_cons_of_mem _ hg)
        · exact .inr (.inl rfl)
        · exact .inr (.inr ⟨g₀, List.mem_cons_of_mem _ hg₀, hsame, rfl⟩)

theorem firsts_place (same : α → α → Prop) [DecidableRel same] (x : α) (groups : List (α × List α)) :
    (place same x groups).map (·.1) = groups.map (·.1) ∨
      (place same x groups).map (·.1) = groups.map (·.1) ++ [x] := by
  induction groups with
  | nil => exact .inr rfl
  | cons g groups ih =>
    rw [place]
    split
    · exact .inl rfl
    · obtain h | h := ih
      · exact .inl (by rw [List.map_cons, h, List.map_cons])
      · exact .inr (by rw [List.map_cons, h, List.map_cons, List.cons_append])

theorem members_place {g : α × List α} (hg : g ∈ place same x groups) :
    ∀ y ∈ members g, y = x ∨ ∃ g₀ ∈ groups, y ∈ members g₀ := by
  intro y hy
  have hmem : y ∈ (place same x groups).flatMap members := List.mem_flatMap.mpr ⟨g, hg, hy⟩
  obtain hy | hy := List.mem_append.mp ((flatMap_place same x groups).mem_iff.mp hmem)
  · exact .inr (List.mem_flatMap.mp hy)
  · exact .inl (List.mem_singleton.mp hy)

theorem apart_place (htrans : ∀ a b c, same a b → same b c → same a c)
    (halike : ∀ g ∈ groups, ∀ x ∈ g.2, same g.1 x)
    (hapart : groups.Pairwise fun g g' => ∀ x ∈ members g, ∀ y ∈ members g', ¬same x y) :
    (place same x groups).Pairwise fun g g' => ∀ x ∈ members g, ∀ y ∈ members g', ¬same x y := by
  induction groups with
  | nil => exact List.pairwise_singleton _ _
  | cons g groups ih =>
    obtain ⟨hfirst, hrest⟩ := List.pairwise_cons.mp hapart
    have hg := halike g List.mem_cons_self
    rw [place]
    split
    · rename_i hsame
      refine List.pairwise_cons.mpr ⟨fun g' hg' a ha b hb hab => ?_, hrest⟩
      have ha' : a ∈ members g ∨ a = x := by
        simpa [members, or_assoc] using ha
      obtain ha' | rfl := ha'
      · exact hfirst g' hg' a ha' b hb hab
      · exact hfirst g' hg' g.1 List.mem_cons_self b hb (htrans _ _ _ hsame hab)
    · rename_i hsame
      refine List.pairwise_cons.mpr ⟨fun g' hg' a ha b hb hab => ?_,
        ih (fun g' hg' => halike g' (List.mem_cons_of_mem _ hg')) hrest⟩
      obtain rfl | ⟨g₀, hg₀, hb⟩ := members_place hg' b hb
      · exact hsame (by
          obtain rfl | ha := List.mem_cons.mp ha
          · exact hab
          · exact htrans _ _ _ (hg a ha) hab)
      · exact hfirst g₀ hg₀ a ha b hb hab

/-- What putting one more element into its group keeps. -/
theorem IsGrouping.place (htrans : ∀ a b c, same a b → same b c → same a c) (h : IsGrouping same xs groups) (x : α) :
    IsGrouping same (xs ++ [x]) (place same x groups) where
  perm := (flatMap_place same x groups).trans (h.perm.append_right _)
  alike g hg := by
    obtain hg | rfl | ⟨g₀, hg₀, hsame, rfl⟩ := mem_place hg
    · exact h.alike g hg
    · exact nofun
    · intro y hy
      obtain hy | hy := List.mem_append.mp hy
      · exact h.alike g₀ hg₀ y hy
      · exact List.mem_singleton.mp hy ▸ hsame
  apart := apart_place htrans h.alike h.apart
  firsts := by
    obtain heq | heq := firsts_place same x groups
    · rw [heq]
      exact h.firsts.trans (List.sublist_append_left _ _)
    · rw [heq]
      exact h.firsts.append (.refl _)
  sublist g hg := by
    obtain hg | rfl | ⟨g₀, hg₀, -, rfl⟩ := mem_place hg
    · exact (h.sublist g hg).trans (List.sublist_append_left _ _)
    · exact List.sublist_append_right _ _
    · exact (h.sublist g₀ hg₀).append (.refl [x])

end

end Minirel

-- SUMMARY: Stable sorts of a list, and the order that several of them in a row make.
import Mathlib.Data.List.Sort

/-!
# Stable sorts

A stable sort by one relation keeps what an earlier one by another has achieved among the
elements that tie. Sorting by the least significant key first thus sorts by all keys: the
invariant over the passes is that the list is a stable sort of the first one by the
lexicographic order of the keys so far.
-/

namespace Minirel

variable {α : Type} {le le₁ le₂ : α → α → Prop} {xs ys zs : List α}

/-- Neither comes after the other. -/
def Tied (le : α → α → Prop) (a b : α) : Prop := le a b ∧ le b a

instance [DecidableRel le] (a b : α) : Decidable (Tied le a b) := inferInstanceAs (Decidable (_ ∧ _))

/-- The relation is a total preorder on the elements of a list. -/
structure TotalOn (le : α → α → Prop) (xs : List α) : Prop where
  total : ∀ a ∈ xs, ∀ b ∈ xs, le a b ∨ le b a
  trans : ∀ a ∈ xs, ∀ b ∈ xs, ∀ c ∈ xs, le a b → le b c → le a c

theorem TotalOn.refl (h : TotalOn le xs) {a : α} (ha : a ∈ xs) : le a a := by
  obtain h | h := h.total a ha a ha <;> exact h

theorem TotalOn.perm (h : TotalOn le xs) (hperm : ys.Perm xs) : TotalOn le ys where
  total a ha b hb := h.total a (hperm.mem_iff.mp ha) b (hperm.mem_iff.mp hb)
  trans a ha b hb c hc := h.trans a (hperm.mem_iff.mp ha) b (hperm.mem_iff.mp hb) c (hperm.mem_iff.mp hc)

/-- The elements in order, those that tie as they were. -/
structure IsStableSort (le : α → α → Prop) [DecidableRel le] (xs ys : List α) : Prop where
  perm : ys.Perm xs
  sorted : ys.Pairwise le
  stable : ∀ a ∈ xs, ys.filter (Tied le a ·) = xs.filter (Tied le a ·)

/-- A permutation that keeps every sorted sublist is stable. -/
theorem IsStableSort.of_sublist [DecidableRel le] (htotal : TotalOn le xs) (hperm : ys.Perm xs)
    (hsorted : ys.Pairwise le) (hkeep : ∀ c : List α, c.Pairwise le → c.Sublist xs → c.Sublist ys) :
    IsStableSort le xs ys := by
  refine ⟨hperm, hsorted, fun a ha => ?_⟩
  have htied : (xs.filter (Tied le a ·)).Pairwise le := by
    refine List.Pairwise.imp_of_mem (fun {b c} hb hc _ => ?_) (List.pairwise_of_forall fun _ _ => trivial)
    obtain ⟨hb, htb⟩ := List.mem_filter.mp hb
    obtain ⟨hc, htc⟩ := List.mem_filter.mp hc
    exact htotal.trans b hb a ha c hc (of_decide_eq_true htb).2 (of_decide_eq_true htc).1
  have hsub : (xs.filter (Tied le a ·)).Sublist (ys.filter (Tied le a ·)) := by
    have h := (hkeep _ htied List.filter_sublist).filter (Tied le a ·)
    rwa [List.filter_filter, show (fun b => decide (Tied le a b) && decide (Tied le a b)) =
      fun b => decide (Tied le a b) from funext fun b => Bool.and_self _] at h
  exact (hsub.eq_of_length (hperm.filter _).length_eq.symm).symm

theorem isStableSort_insertionSort [DecidableRel le] (h : TotalOn le xs) :
    IsStableSort le xs (xs.insertionSort le) := by
  -- the relation is total on all elements of the subtype
  let le' : { a // a ∈ xs } → { a // a ∈ xs } → Prop := fun a b => le a.1 b.1
  have : Std.Total le' := ⟨fun a b => h.total a.1 a.2 b.1 b.2⟩
  have : IsTrans _ le' := ⟨fun a b c => h.trans a.1 a.2 b.1 b.2 c.1 c.2⟩
  have hmap : (xs.attach.insertionSort le').map Subtype.val = xs.insertionSort le := by
    rw [List.map_insertionSort le' le _ _ fun _ _ _ _ => .rfl, List.attach_map_subtype_val]
  refine .of_sublist h (xs.perm_insertionSort le) ?_ fun c hc hsub => ?_
  · rw [← hmap]
    exact List.pairwise_map.mpr (List.pairwise_insertionSort le' _)
  · rw [← List.attach_map_subtype_val xs] at hsub
    obtain ⟨c', hc', rfl⟩ := List.sublist_map_iff.mp hsub
    rw [← hmap]
    exact (List.sublist_insertionSort (List.pairwise_map.mp hc) hc').map _

/-! ## Several sorts in a row -/

/-- By the first relation, and by the second where the first does not tell. -/
def Lex (le₁ le₂ : α → α → Prop) (a b : α) : Prop := le₁ a b ∧ (le₁ b a → le₂ a b)

instance [DecidableRel le₁] [DecidableRel le₂] : DecidableRel (Lex le₁ le₂) := fun _ _ =>
  inferInstanceAs (Decidable (_ ∧ (_ → _)))

theorem tied_lex_iff {a b : α} : Tied (Lex le₁ le₂) a b ↔ Tied le₁ a b ∧ Tied le₂ a b := by
  simp only [Tied, Lex]
  tauto

theorem isStableSort_refl (xs : List α) : IsStableSort (fun _ _ => True) xs xs :=
  ⟨.refl _, List.pairwise_of_forall fun _ _ => trivial, fun _ _ => rfl⟩

/-- The later sort is by the more significant relation. -/
theorem IsStableSort.lex [DecidableRel le₁] [DecidableRel le₂] (h₂ : IsStableSort le₂ xs ys)
    (h₁ : IsStableSort le₁ ys zs) (htotal : TotalOn le₁ ys) : IsStableSort (Lex le₁ le₂) xs zs := by
  refine ⟨h₁.perm.trans h₂.perm, ?_, fun a ha => ?_⟩
  · refine List.pairwise_iff_forall_sublist.mpr fun {a b} hab => ?_
    have hle := List.pairwise_iff_forall_sublist.mp h₁.sorted hab
    refine ⟨hle, fun hge => ?_⟩
    have ha : a ∈ ys := h₁.perm.mem_iff.mp (hab.subset List.mem_cons_self)
    -- the pair stood in this order before the last sort
    have hpair : [a, b].filter (Tied le₁ a ·) = [a, b] := by
      simp [Tied, htotal.refl ha, hle, hge]
    have hfilter := hab.filter (Tied le₁ a ·)
    rw [h₁.stable a ha, hpair] at hfilter
    exact List.pairwise_iff_forall_sublist.mp h₂.sorted (hfilter.trans List.filter_sublist)
  · have hboth : ∀ l : List α, l.filter (Tied (Lex le₁ le₂) a ·) =
        (l.filter (Tied le₁ a ·)).filter (Tied le₂ a ·) := by
      intro l
      rw [List.filter_filter]
      exact List.filter_congr fun b _ => by simp only [tied_lex_iff, Bool.decide_and, Bool.and_comm]
    rw [hboth, hboth, h₁.stable a (h₂.perm.mem_iff.mpr ha), List.filter_comm, h₂.stable a ha,
      List.filter_comm]

end Minirel

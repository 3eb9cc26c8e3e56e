-- SUMMARY: Walks from place to place: when they end, and the chains they go along.
import Mathlib.Data.Fintype.Card
import Mathlib.Data.Set.Finite.Basic
import Mathlib.Logic.Relation

/-!
# Walks

A walk goes on from a place for as long as the place leads to another. Over finitely many
places that lead anywhere it ends unless it comes back to where it was. A chain is a walk
that looks up what stands in a place and finds the next place in it, up to one that means
the end.
-/

namespace Minirel

/-! ## Going round in circles -/

section
variable {α : Type} {leads : α → α → Prop} {a b : α}

/-- A place that can be reached leads back to itself. -/
def Circles (leads : α → α → Prop) (a : α) : Prop :=
  ∃ b, Relation.ReflTransGen leads a b ∧ Relation.TransGen leads b b

theorem acc_of_reaches (h : Acc (fun b a => leads a b) a) (hreach : Relation.ReflTransGen leads a b) :
    Acc (fun b a => leads a b) b := by
  induction hreach with
  | refl => exact h
  | tail _ hstep ih => exact ih.inv hstep

theorem not_circles_of_acc (h : Acc (fun b a => leads a b) a) : ¬Circles leads a := by
  rintro ⟨b, hreach, hcircle⟩
  have hback : Relation.TransGen (fun b a => leads a b) b b := Relation.transGen_swap.mpr hcircle
  have hacc := (acc_of_reaches h hreach).transGen
  clear hcircle hreach
  induction hacc with
  | intro b _ ih => exact ih b hback hback

/-- Where only finitely many places lead anywhere, every walk ends or comes back. -/
theorem acc_iff_not_circles (hfin : {a | ∃ b, leads a b}.Finite) :
    Acc (fun b a => leads a b) a ↔ ¬Circles leads a := by
  refine ⟨not_circles_of_acc, fun h => ?_⟩
  let places := {c | Relation.ReflTransGen leads a c ∧ ∃ b, leads c b}
  have : Finite places := (hfin.subset fun c hc => hc.2).to_subtype
  let before : places → places → Prop := fun x y => Relation.TransGen leads y x
  have htrans : IsTrans places before := ⟨fun _ _ _ hxy hyz => hyz.trans hxy⟩
  have hirrefl : Std.Irrefl before := ⟨fun x hx => h ⟨x, x.2.1, hx⟩⟩
  have hwf : WellFounded before := Finite.wellFounded_of_trans_of_irrefl before
  -- a place that leads nowhere is the end of the walk, and all others are below `a`
  have hplaces : ∀ x : places, Acc (fun b a => leads a b) x.1 := by
    refine fun x => hwf.induction (C := fun x => Acc _ x.1) x fun x ih => ?_
    refine Acc.intro _ fun c hc => ?_
    by_cases hnext : ∃ b, leads c b
    · exact ih ⟨c, x.2.1.tail hc, hnext⟩ (.single hc)
    · exact Acc.intro _ fun b hb => absurd ⟨b, hb⟩ hnext
  by_cases hnext : ∃ b, leads a b
  · exact hplaces ⟨a, .refl, hnext⟩
  · exact Acc.intro _ fun b hb => absurd ⟨b, hb⟩ hnext

end

/-! ## Chains -/

section
variable {ι π : Type} {look : ι → Option π} {next : π → ι} {stop : ι}

/-- What stands in the places from `first` on, up to the one that means the end. -/
def Trail (look : ι → Option π) (next : π → ι) (stop : ι) : ι → List (ι × π) → Prop
  | first, [] => first = stop
  | first, (p, x) :: rest =>
    first = p ∧ p ≠ stop ∧ look p = some x ∧ Trail look next stop (next x) rest

namespace Trail
variable {first p : ι} {x : π} {chain chain' before after : List (ι × π)}

theorem unique (h : Trail look next stop first chain) (h' : Trail look next stop first chain') :
    chain = chain' := by
  induction chain generalizing first chain' with
  | nil =>
    cases chain' with
    | nil => rfl
    | cons y chain' => exact absurd (h'.1 ▸ h) h'.2.1
  | cons y chain ih =>
    cases chain' with
    | nil => exact absurd (h.1 ▸ h') h.2.1
    | cons z chain' =>
      obtain ⟨p, y⟩ := y
      obtain ⟨q, z⟩ := z
      obtain ⟨rfl, -, hp, hrest⟩ := h
      obtain ⟨rfl, -, hq, hrest'⟩ := h'
      obtain rfl : y = z := Option.some.inj (hp.symm.trans hq)
      rw [ih hrest hrest']

theorem of_mem (h : Trail look next stop first chain) (hp : (p, x) ∈ chain) :
    p ≠ stop ∧ look p = some x := by
  induction chain generalizing first with
  | nil => cases hp
  | cons y chain ih =>
    obtain ⟨rfl, hne, hlook, hrest⟩ := h
    rcases List.mem_cons.mp hp with heq | hp
    · cases heq
      exact ⟨hne, hlook⟩
    · exact ih hrest hp

/-- What is left of a chain from one of its places on. -/
theorem suffix (h : Trail look next stop first (before ++ (p, x) :: after)) :
    Trail look next stop p ((p, x) :: after) := by
  induction before generalizing first with
  | nil => exact h.1 ▸ h
  | cons y before ih => exact ih h.2.2.2

/-- A chain that ends comes to no place twice. -/
theorem nodup (h : Trail look next stop first chain) : (chain.map (·.1)).Nodup := by
  induction chain generalizing first with
  | nil => exact List.nodup_nil
  | cons y chain ih =>
    obtain ⟨p, y⟩ := y
    rw [List.map_cons, List.nodup_cons]
    refine ⟨fun hp => ?_, ih h.2.2.2⟩
    -- the rest of the chain from the second visit on would be all of it
    obtain ⟨⟨q, z⟩, hmem, rfl⟩ := List.mem_map.mp hp
    obtain ⟨before, after, rfl⟩ := List.append_of_mem hmem
    have hsuffix := h.2.2.2.suffix
    obtain rfl := h.1
    have hlen := congrArg List.length (h.unique hsuffix)
    simp at hlen
    omega

/-- A chain through a part of the places is a chain through all of them. -/
theorem mono {look' : ι → Option π} (h : Trail look next stop first chain)
    (hlook : ∀ p x, look p = some x → look' p = some x) : Trail look' next stop first chain := by
  induction chain generalizing first with
  | nil => exact h
  | cons y chain ih => exact ⟨h.1, h.2.1, hlook _ _ h.2.2.1, ih h.2.2.2⟩

end Trail
end

end Minirel

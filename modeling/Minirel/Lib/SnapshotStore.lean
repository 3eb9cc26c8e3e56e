-- SUMMARY: An abstract store with snapshot isolation, where the first to remove a version wins.
import Mathlib.Data.Set.Basic
import Mathlib.Logic.Function.Basic

/-!
# Snapshot-isolated stores

A store has versions that are committed, and transactions that work. A transaction starts from
the versions that are committed when it begins. It removes some of those it sees, unless they
have been removed by somebody else, and adds new ones. For the others this happens when it
commits, and not at all when it aborts.

The events of a run are its trace. What is committed is what the commits of the trace publish,
in their order.
-/

namespace Minirel
namespace SnapshotStore

variable {ν : Type}

/-! ## The store -/

/-- The work of a transaction: the versions it started from, and what it has done to them. -/
structure Work (ν : Type) where
  base : Set ν
  added : Set ν
  removed : Set ν

namespace Work

/-- Nothing has been done yet. -/
def start (base : Set ν) : Work ν := ⟨base, ∅, ∅⟩

/-- The versions that the transaction sees. -/
def view (w : Work ν) : Set ν := {x | x ∈ w.base ∧ x ∉ w.removed ∨ x ∈ w.added}

/-- Some versions go and others come. Own versions that go leave no trace. -/
def write (w : Work ν) (gone come : Set ν) : Work ν where
  base := w.base
  added := {x | x ∈ w.added ∧ x ∉ gone ∨ x ∈ come}
  removed := {x | x ∈ w.removed ∨ x ∈ gone ∧ x ∈ w.base}

end Work

/-- The committed versions, all that there have ever been, and the work that is going on. -/
@[ext] structure Store (ν : Type) where
  committed : Set ν
  known : Set ν
  work : Nat → Option (Work ν)

/-- Nothing has happened yet. -/
def Store.empty : Store ν := ⟨∅, ∅, fun _ => none⟩

/-- What the others get to see of a commit. -/
def publish (gone come s : Set ν) : Set ν := {x | x ∈ s ∧ x ∉ gone ∨ x ∈ come}

/-- What can happen. A commit says what it publishes. -/
inductive Event (ν : Type) where
  | begin (n : Nat)
  | write (n : Nat) (gone come : Set ν)
  | commit (n : Nat) (gone come : Set ν)
  | abort (n : Nat)

/-- The end of a transaction. -/
def Event.Ends (n : Nat) : Event ν → Prop
  | .commit m _ _ | .abort m => m = n
  | _ => False

inductive Step : Store ν → Event ν → Store ν → Prop where
  | begin {s : Store ν} {n : Nat} (new : s.work n = none) :
      Step s (.begin n) { s with work := Function.update s.work n (some (.start s.committed)) }
  /-- A version may go if it is seen, and has been removed by nobody: neither by one who has
      committed nor by one who is still at work. -/
  | write {s : Store ν} {n : Nat} {w : Work ν} {gone come : Set ν} (found : s.work n = some w)
      (seen : ∀ x ∈ gone, x ∈ w.view)
      (first : ∀ x ∈ gone, x ∈ w.base → x ∈ s.committed)
      (others : ∀ m w', m ≠ n → s.work m = some w' → ∀ x ∈ gone, x ∉ w'.removed)
      (fresh : ∀ x ∈ come, x ∉ s.known) :
      Step s (.write n gone come) ⟨s.committed, {x | x ∈ s.known ∨ x ∈ come},
        Function.update s.work n (some (w.write gone come))⟩
  | commit {s : Store ν} {n : Nat} {w : Work ν} (found : s.work n = some w) :
      Step s (.commit n w.removed w.added)
        ⟨publish w.removed w.added s.committed, s.known, Function.update s.work n none⟩
  | abort {s : Store ν} {n : Nat} {w : Work ν} (found : s.work n = some w) :
      Step s (.abort n) { s with work := Function.update s.work n none }

/-- Events one after the other. -/
inductive Steps : Store ν → List (Event ν) → Store ν → Prop where
  | nil {s : Store ν} : Steps s [] s
  | cons {s s₁ s₂ : Store ν} {e : Event ν} {es : List (Event ν)} (step : Step s e s₁)
      (rest : Steps s₁ es s₂) : Steps s (e :: es) s₂

variable {s s₁ s' : Store ν} {e : Event ν} {es es' : List (Event ν)} {n m : Nat} {w w' : Work ν} {x : ν}
  {gone come : Set ν}

theorem Steps.append (h : Steps s es s₁) (h' : Steps s₁ es' s') : Steps s (es ++ es') s' := by
  induction h with
  | nil => exact h'
  | cons step _ ih => exact .cons step (ih h')

theorem Steps.single (h : Step s e s') : Steps s [e] s' := .cons h .nil

theorem Steps.split (h : Steps s (es ++ es') s') : ∃ s₁, Steps s es s₁ ∧ Steps s₁ es' s' := by
  induction es generalizing s with
  | nil => exact ⟨s, .nil, h⟩
  | cons e es ih =>
    cases h with
    | cons step rest =>
      obtain ⟨s₁, hfirst, hlast⟩ := ih rest
      exact ⟨s₁, .cons step hfirst, hlast⟩

/-- What a transaction has added is for nobody else to see yet, and what it has removed is still
    there. -/
structure Sober (committed known : Set ν) (w : Work ν) : Prop where
  base_known : ∀ x ∈ w.base, x ∈ known
  added_known : ∀ x ∈ w.added, x ∈ known
  added_new : ∀ x ∈ w.added, x ∉ committed
  added_base : ∀ x ∈ w.added, x ∉ w.base
  removed_base : ∀ x ∈ w.removed, x ∈ w.base
  removed_committed : ∀ x ∈ w.removed, x ∈ committed

/-- Two transactions are not in each other's way. -/
structure Apart (w w' : Work ν) : Prop where
  added_base : ∀ x ∈ w.added, x ∉ w'.base
  base_added : ∀ x ∈ w'.added, x ∉ w.base
  added : ∀ x ∈ w.added, x ∉ w'.added
  removed : ∀ x ∈ w.removed, x ∉ w'.removed

structure Orderly (s : Store ν) : Prop where
  committed_known : ∀ x ∈ s.committed, x ∈ s.known
  sober : ∀ {n w}, s.work n = some w → Sober s.committed s.known w
  apart : ∀ {n m w w'}, n ≠ m → s.work n = some w → s.work m = some w' → Apart w w'

theorem Apart.symm (h : Apart w w') : Apart w' w where
  added_base := h.base_added
  base_added := h.added_base
  added x hx hx' := h.added x hx' hx
  removed x hx hx' := h.removed x hx' hx

/-- The work of one transaction is replaced. -/
theorem work_update {o : Option (Work ν)} (h : Function.update s.work n o m = some w) :
    m = n ∧ o = some w ∨ m ≠ n ∧ s.work m = some w := by
  by_cases heq : m = n
  · subst heq
    rw [Function.update_self] at h
    exact .inl ⟨rfl, h⟩
  · rw [Function.update_of_ne heq] at h
    exact .inr ⟨heq, h⟩

/-- Work that has ended is gone. -/
theorem work_ended (h : Function.update s.work n none m = some w) : m ≠ n ∧ s.work m = some w := by
  obtain ⟨-, heq⟩ | h := work_update h
  · cases heq
  · exact h

/-- It is enough to look at the work that is replaced. -/
theorem Orderly.replace {committed known : Set ν} {o : Option (Work ν)} (h : Orderly s)
    (hknown : ∀ x ∈ committed, x ∈ known)
    (hsober : ∀ m w, m ≠ n → s.work m = some w → Sober committed known w)
    (hnew : ∀ w, o = some w → Sober committed known w ∧
      ∀ m w', m ≠ n → s.work m = some w' → Apart w w') :
    Orderly ⟨committed, known, Function.update s.work n o⟩ where
  committed_known := hknown
  sober hw := by
    obtain ⟨-, heq⟩ | ⟨hne, hold⟩ := work_update hw
    · exact (hnew _ heq).1
    · exact hsober _ _ hne hold
  apart hne hw hw' := by
    obtain ⟨hn, heq⟩ | ⟨hn, hold⟩ := work_update hw
    · obtain ⟨hm, -⟩ | ⟨hm, hold'⟩ := work_update hw'
      · exact absurd (hn.trans hm.symm) hne
      · exact (hnew _ heq).2 _ _ hm hold'
    · obtain ⟨-, heq'⟩ | ⟨-, hold'⟩ := work_update hw'
      · exact ((hnew _ heq').2 _ _ hn hold).symm
      · exact h.apart hne hold hold'

theorem Orderly.begin (h : Orderly s) :
    Orderly { s with work := Function.update s.work n (some (.start s.committed)) } := by
  refine h.replace h.committed_known (fun m w _ hw => h.sober hw) fun w heq => ?_
  cases heq
  refine ⟨⟨h.committed_known, nofun, nofun, nofun, nofun, nofun⟩, fun m w' _ hw' => ?_⟩
  exact ⟨nofun, (h.sober hw').added_new, nofun, nofun⟩

theorem Orderly.abort (h : Orderly s) : Orderly { s with work := Function.update s.work n none } :=
  h.replace h.committed_known (fun _ _ _ hw => h.sober hw) nofun

/-- Of what the others have removed or added, a commit neither removes nor adds anything. -/
theorem Orderly.commit (h : Orderly s) (found : s.work n = some w) :
    Orderly ⟨publish w.removed w.added s.committed, s.known, Function.update s.work n none⟩ := by
  refine h.replace (fun x hx => ?_) (fun m w' hne hw' => ?_) nofun
  · obtain ⟨hx, -⟩ | hx := hx
    · exact h.committed_known x hx
    · exact (h.sober found).added_known x hx
  · have hapart := h.apart hne hw' found
    obtain ⟨base_known, added_known, added_new, added_base, removed_base, removed_committed⟩ := h.sober hw'
    refine ⟨base_known, added_known, fun x hx hmem => ?_, added_base, removed_base, fun x hx => ?_⟩
    · obtain ⟨hmem, -⟩ | hmem := hmem
      · exact added_new x hx hmem
      · exact hapart.added x hx hmem
    · exact .inl ⟨removed_committed x hx, hapart.removed x hx⟩

/-- What goes has been removed by nobody, and what comes is new. -/
theorem Orderly.write (h : Orderly s) (found : s.work n = some w)
    (first : ∀ x ∈ gone, x ∈ w.base → x ∈ s.committed)
    (others : ∀ m w', m ≠ n → s.work m = some w' → ∀ x ∈ gone, x ∉ w'.removed)
    (fresh : ∀ x ∈ come, x ∉ s.known) :
    Orderly ⟨s.committed, {x | x ∈ s.known ∨ x ∈ come},
      Function.update s.work n (some (w.write gone come))⟩ := by
  refine h.replace (fun x hx => .inl (h.committed_known x hx)) (fun m w' _ hw' => ?_) fun u heq => ?_
  · obtain ⟨base_known, added_known, added_new, added_base, removed_base, removed_committed⟩ := h.sober hw'
    exact ⟨fun x hx => .inl (base_known x hx), fun x hx => .inl (added_known x hx), added_new, added_base,
      removed_base, removed_committed⟩
  cases heq
  have hw := h.sober found
  have hadded : ∀ {P : ν → Prop}, (∀ x ∈ w.added, P x) → (∀ x, x ∉ s.known → P x) →
      ∀ x ∈ (w.write gone come).added, P x := by
    intro P hold hfresh x hx
    obtain ⟨hx, -⟩ | hx := hx
    · exact hold x hx
    · exact hfresh x (fresh x hx)
  constructor
  · constructor
    case base_known => exact fun x hx => .inl (hw.base_known x hx)
    case added_known => exact fun x hx => hx.imp (fun hx => hw.added_known x hx.1) id
    case added_new => exact hadded hw.added_new fun x hx hmem => hx (h.committed_known x hmem)
    case added_base => exact hadded hw.added_base fun x hx hmem => hx (hw.base_known x hmem)
    case removed_base => exact fun x hx => hx.elim (hw.removed_base x) (·.2)
    case removed_committed => exact fun x hx => hx.elim (hw.removed_committed x) fun hx => first x hx.1 hx.2
  · intro m w' hne hw'
    have hapart := h.apart hne.symm found hw'
    have hsober := h.sober hw'
    constructor
    case added_base => exact hadded hapart.added_base fun x hx hmem => hx (hsober.base_known x hmem)
    case base_added => exact hapart.base_added
    case added => exact hadded hapart.added fun x hx hmem => hx (hsober.added_known x hmem)
    case removed => exact fun x hx => hx.elim (hapart.removed x) fun hx => others m w' hne hw' x hx.1

/-- A version that will never be added again. -/
structure Spent (s : Store ν) (x : ν) : Prop where
  known : x ∈ s.known
  not_added : ∀ {n w}, s.work n = some w → x ∉ w.added

theorem Spent.step (h : Spent s x) (hstep : Step s e s') :
    Spent s' x ∧ (x ∈ s'.committed → x ∈ s.committed) := by
  obtain ⟨hknown, hnot⟩ := h
  cases hstep with
  | begin new =>
    refine ⟨⟨hknown, fun hw => ?_⟩, id⟩
    obtain ⟨-, heq⟩ | ⟨-, hw⟩ := work_update hw
    · cases heq
      exact id
    · exact hnot hw
  | write found seen first others fresh =>
    refine ⟨⟨.inl hknown, fun hw => ?_⟩, id⟩
    obtain ⟨-, heq⟩ | ⟨-, hw⟩ := work_update hw
    · cases heq
      rintro (⟨hx, -⟩ | hx)
      · exact hnot found hx
      · exact fresh x hx hknown
    · exact hnot hw
  | commit found =>
    refine ⟨⟨hknown, fun hw => hnot (work_ended hw).2⟩, ?_⟩
    rintro (⟨hx, -⟩ | hx)
    · exact hx
    · exact absurd hx (hnot found)
  | abort found => exact ⟨⟨hknown, fun hw => hnot (work_ended hw).2⟩, id⟩

theorem Spent.steps (h : Spent s x) (hsteps : Steps s es s') :
    Spent s' x ∧ (x ∈ s'.committed → x ∈ s.committed) := by
  induction hsteps with
  | nil => exact ⟨h, id⟩
  | cons step _ ih =>
    obtain ⟨h₁, hback⟩ := h.step step
    obtain ⟨h₂, hback'⟩ := ih h₁
    exact ⟨h₂, hback ∘ hback'⟩

end SnapshotStore
end Minirel

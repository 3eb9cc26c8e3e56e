-- SUMMARY: Weakest preconditions of computations over a state that may raise.
import Mathlib.Logic.Basic
import Mathlib.Order.Defs.Unbundled

/-!
# Weakest preconditions

What a computation leaves behind, whether it returns or raises. A state that it has
changed before it raises stays changed, so both ends have a postcondition.
-/

namespace Minirel

variable {ε σ α β : Type}

/-- From `s` the computation returns with `Q` or raises with `E`. -/
def wp (m : EStateM ε σ α) (Q : α → σ → Prop) (E : ε → σ → Prop) (s : σ) : Prop :=
  match m s with
  | .ok a s' => Q a s'
  | .error e s' => E e s'

section
variable {m : EStateM ε σ α} {f : α → EStateM ε σ β} {Q Q' : α → σ → Prop} {R : β → σ → Prop}
  {E E' : ε → σ → Prop} {s s' : σ} {a : α} {e : ε}

theorem wp_of_ok (h : m s = .ok a s') : wp m Q E s ↔ Q a s' := by
  simp only [wp, h]

theorem wp_of_error (h : m s = .error e s') : wp m Q E s ↔ E e s' := by
  simp only [wp, h]

theorem wp.ok (h : wp m Q E s) (hm : m s = .ok a s') : Q a s' := (wp_of_ok hm).mp h

theorem wp.error (h : wp m Q E s) (hm : m s = .error e s') : E e s' := (wp_of_error hm).mp h

theorem run_pure : (pure a : EStateM ε σ α) s = .ok a s := rfl

theorem run_throw : (throw e : EStateM ε σ α) s = .error e s := rfl

theorem run_get : (get : EStateM ε σ σ) s = .ok s s := rfl

/-- The rest of a computation, after a part that has returned. -/
theorem run_bind_ok (h : m s = .ok a s') : (m >>= f) s = f a s' := by
  simp only [bind, EStateM.bind, h]

theorem run_bind_error (h : m s = .error e s') : (m >>= f) s = .error e s' := by
  simp only [bind, EStateM.bind, h]

/-- A computation that returns returns step by step. -/
theorem run_bind_eq_ok {b : β} :
    (m >>= f) s = .ok b s' ↔ ∃ a s₁, m s = .ok a s₁ ∧ f a s₁ = .ok b s' := by
  cases h : m s with
  | ok a s₁ =>
    rw [run_bind_ok h]
    refine ⟨fun hf => ⟨a, s₁, rfl, hf⟩, ?_⟩
    rintro ⟨a', s₁', heq, hf⟩
    cases heq
    exact hf
  | error e s₁ =>
    rw [run_bind_error h]
    refine ⟨nofun, ?_⟩
    rintro ⟨a, s₁', heq, -⟩
    cases heq

/-- A postcondition for each end, from what is known of the results. -/
theorem wp_of (hok : ∀ a s', m s = .ok a s' → Q a s') (herr : ∀ e s', m s = .error e s' → E e s') :
    wp m Q E s := by
  cases h : m s with
  | ok a s' => exact (wp_of_ok h).mpr (hok a s' h)
  | error e s' => exact (wp_of_error h).mpr (herr e s' h)

@[simp] theorem wp_pure : wp (pure a : EStateM ε σ α) Q E s ↔ Q a s := Iff.rfl

@[simp] theorem wp_throw : wp (throw e : EStateM ε σ α) Q E s ↔ E e s := Iff.rfl

@[simp] theorem wp_get {Q : σ → σ → Prop} : wp (get : EStateM ε σ σ) Q E s ↔ Q s s := Iff.rfl

theorem wp_set {Q : PUnit → σ → Prop} : wp (set s' : EStateM ε σ PUnit) Q E s ↔ Q ⟨⟩ s' := Iff.rfl

theorem wp_modify {Q : PUnit → σ → Prop} {g : σ → σ} :
    wp (modify g : EStateM ε σ PUnit) Q E s ↔ Q ⟨⟩ (g s) := Iff.rfl

@[simp] theorem wp_bind : wp (m >>= f) R E s ↔ wp m (fun a => wp (f a) R E) E s := by
  simp only [wp, bind, EStateM.bind]
  cases m s <;> rfl

theorem wp.mono (h : wp m Q E s) (hQ : ∀ a s', Q a s' → Q' a s') (hE : ∀ e s', E e s' → E' e s') :
    wp m Q' E' s := by
  refine wp_of (fun a s' hm => hQ a s' (h.ok hm)) fun e s' hm => hE e s' (h.error hm)

/-- One part of a computation after the other. -/
theorem wp.bind {E₀ : ε → σ → Prop} (h : wp m Q E₀ s) (hf : ∀ a s', Q a s' → wp (f a) R E s')
    (hE : ∀ e s', E₀ e s' → E e s') : wp (m >>= f) R E s :=
  wp_bind.mpr (h.mono hf hE)

end

theorem wp.and {Q₁ Q₂ : α → σ → Prop} {E₁ E₂ : ε → σ → Prop} {m : EStateM ε σ α} {s : σ}
    (h₁ : wp m Q₁ E₁ s) (h₂ : wp m Q₂ E₂ s) :
    wp m (fun a s' => Q₁ a s' ∧ Q₂ a s') (fun e s' => E₁ e s' ∧ E₂ e s') s :=
  wp_of (fun _ _ hm => ⟨h₁.ok hm, h₂.ok hm⟩) fun _ _ hm => ⟨h₁.error hm, h₂.error hm⟩

/-- What a computation does where it is only known under a condition. -/
theorem wp.of_imp {P : Prop} {Q : α → σ → Prop} {E : ε → σ → Prop} {m : EStateM ε σ α} {s : σ}
    (h : P → wp m Q E s) : wp m (fun a s' => P → Q a s') (fun e s' => P → E e s') s :=
  wp_of (fun _ _ hm hP => (h hP).ok hm) fun _ _ hm hP => (h hP).error hm

/-- The postconditions may speak of the run itself. -/
theorem wp.run {Q : α → σ → Prop} {E : ε → σ → Prop} {m : EStateM ε σ α} {s : σ} (h : wp m Q E s) :
    wp m (fun a s' => m s = .ok a s' ∧ Q a s') (fun e s' => m s = .error e s' ∧ E e s') s :=
  wp_of (fun _ _ hm => ⟨hm, h.ok hm⟩) fun _ _ hm => ⟨hm, h.error hm⟩

/-- What may not raise returns. -/
theorem wp.returns {Q : α → σ → Prop} {m : EStateM ε σ α} {s : σ} (h : wp m Q (fun _ _ => False) s) :
    ∃ a s', m s = .ok a s' ∧ Q a s' := by
  cases hm : m s with
  | ok a s' => exact ⟨a, s', rfl, h.ok hm⟩
  | error e s' => exact (h.error hm).elim

/-! ## Cleaning up -/

/-- A computation with another one behind it, whether it returns or raises. -/
def andFinally (m : EStateM ε σ α) (cleanup : EStateM ε σ PUnit) : EStateM ε σ α := fun s =>
  match m s with
  | .ok a s' => (do cleanup; return a) s'
  | .error e s' => (do cleanup; throw e) s'

theorem wp_andFinally {Q : α → σ → Prop} {E : ε → σ → Prop} {m : EStateM ε σ α}
    {cleanup : EStateM ε σ PUnit} {s : σ} :
    wp (andFinally m cleanup) Q E s ↔
      wp m (fun a => wp cleanup (fun _ => Q a) E) (fun e => wp cleanup (fun _ => E e) E) s := by
  cases hm : m s with
  | ok a s₁ =>
    have hcleanup : wp (do cleanup; return a : EStateM ε σ α) Q E s₁ ↔ _ := wp_bind
    rw [wp_of_ok hm, wp, andFinally, hm]
    exact hcleanup
  | error e s₁ =>
    have hcleanup : wp (do cleanup; throw e : EStateM ε σ α) Q E s₁ ↔ _ := wp_bind
    rw [wp_of_error hm, wp, andFinally, hm]
    exact hcleanup

/-! ## Computations that only read -/

/-- The computation changes nothing. -/
def Reads (m : EStateM ε σ α) : Prop := ∀ s, wp m (fun _ s' => s' = s) (fun _ s' => s' = s) s

namespace Reads
variable {m : EStateM ε σ α} {f : α → EStateM ε σ β} {s s' : σ} {a : α} {e : ε}

theorem ok (h : Reads m) (hm : m s = .ok a s') : s' = s := (h s).ok hm

theorem error (h : Reads m) (hm : m s = .error e s') : s' = s := (h s).error hm

/-- It ends in the state it started in. -/
theorem wp (h : Reads m) {Q : α → σ → Prop} {E : ε → σ → Prop}
    (hQ : ∀ a, m s = .ok a s → Q a s) (hE : ∀ e, m s = .error e s → E e s) :
    Minirel.wp m Q E s := by
  refine wp_of (fun a s' hm => ?_) fun e s' hm => ?_
  · obtain rfl := h.ok hm
    exact hQ a hm
  · obtain rfl := h.error hm
    exact hE e hm

theorem pure (a : α) : Reads (pure a : EStateM ε σ α) := fun _ => rfl

theorem throw (e : ε) : Reads (throw e : EStateM ε σ α) := fun _ => rfl

theorem get : Reads (MonadState.get : EStateM ε σ σ) := fun _ => rfl

theorem bind (hm : Reads m) (hf : ∀ a, Reads (f a)) : Reads (m >>= f) := fun _ =>
  wp_bind.mpr (hm.wp (fun a _ => hf a _) fun _ _ => rfl)

theorem map (g : α → β) (hm : Reads m) : Reads (g <$> m) := by
  rw [map_eq_pure_bind]
  exact hm.bind fun a => .pure _

end Reads

/-! ## Limits -/

/-- A limit that is kept at the end of the computation was kept at its start. -/
def Sheds (B : σ → Prop) (m : EStateM ε σ α) : Prop :=
  ∀ s, wp m (fun _ s' => B s' → B s) (fun _ s' => B s' → B s) s

/-- The weakest precondition of a computation whose postconditions are owed only as long as
    it keeps to the limit. -/
def wpIf (B : σ → Prop) (m : EStateM ε σ α) (Q : α → σ → Prop) (E : ε → σ → Prop) (s : σ) : Prop :=
  wp m (fun a s' => B s' → Q a s') (fun e s' => B s' → E e s') s

section
variable {B : σ → Prop} {m : EStateM ε σ α} {f : α → EStateM ε σ β} {Q Q' : α → σ → Prop}
  {R : β → σ → Prop} {E E' : ε → σ → Prop} {s s' : σ} {a : α} {e : ε}

theorem Reads.sheds (h : Reads m) : Sheds B m := fun _ =>
  h.wp (fun _ _ hB => hB) fun _ _ hB => hB

theorem Sheds.bind (hm : Sheds B m) (hf : ∀ a, Sheds B (f a)) : Sheds B (m >>= f) := fun s =>
  (hm s).bind (fun a s₁ h₁ => (hf a s₁).mono (fun _ _ h₂ hB => h₁ (h₂ hB))
    fun _ _ h₂ hB => h₁ (h₂ hB)) fun _ _ h₁ => h₁

theorem wp.wpIf (h : wp m Q E s) : wpIf B m Q E s := h.mono (fun _ _ h _ => h) fun _ _ h _ => h

theorem wpIf.ok (h : wpIf B m Q E s) (hm : m s = .ok a s') (hB : B s') : Q a s' := wp.ok h hm hB

theorem wpIf.error (h : wpIf B m Q E s) (hm : m s = .error e s') (hB : B s') : E e s' :=
  wp.error h hm hB

theorem wpIf.mono (h : wpIf B m Q E s) (hQ : ∀ a s', B s' → Q a s' → Q' a s')
    (hE : ∀ e s', B s' → E e s' → E' e s') : wpIf B m Q' E' s :=
  wp.mono h (fun a s' h hB => hQ a s' hB (h hB)) fun e s' h hB => hE e s' hB (h hB)

theorem wpIf.run (h : wpIf B m Q E s) :
    wpIf B m (fun a s' => m s = .ok a s' ∧ Q a s') (fun e s' => m s = .error e s' ∧ E e s') s :=
  wp.mono (wp.run h) (fun _ _ h hB => ⟨h.1, h.2 hB⟩) fun _ _ h hB => ⟨h.1, h.2 hB⟩

/-- A computation that has kept to the limit has started within it. -/
theorem Sheds.start (hm : Sheds B m) (h : B s → wpIf B m Q E s) : wpIf B m Q E s :=
  wp_of (fun _ _ hrun hB => (h ((hm s).ok hrun hB)).ok hrun hB)
    fun _ _ hrun hB => (h ((hm s).error hrun hB)).error hrun hB

/-- One part after the other: the second part starts within the limit if it ends there. -/
theorem wpIf.bind {E₀ : ε → σ → Prop} (h : wpIf B m Q E₀ s) (hf : ∀ a, Sheds B (f a))
    (hQ : ∀ a s', B s' → Q a s' → wpIf B (f a) R E s') (hE : ∀ e s', B s' → E₀ e s' → E e s') :
    wpIf B (m >>= f) R E s := by
  refine wp.bind h (fun a s₁ h₁ => ?_) fun e s₁ h₁ hB => hE e s₁ hB (h₁ hB)
  refine wp_of (fun b s₂ hm hB => ?_) fun e s₂ hm hB => ?_
  · have hB₁ := (hf a s₁).ok hm hB
    exact (hQ a s₁ hB₁ (h₁ hB₁)).ok hm hB
  · have hB₁ := (hf a s₁).error hm hB
    exact (hQ a s₁ hB₁ (h₁ hB₁)).error hm hB

end

/-! ## Preorders -/

/-- Wherever the computation ends is related to where it has started. -/
def Follows (R : σ → σ → Prop) (m : EStateM ε σ α) : Prop :=
  ∀ s, wp m (fun _ s' => R s s') (fun _ s' => R s s') s

section
variable {R : σ → σ → Prop} [IsPreorder σ R] {m : EStateM ε σ α} {f : α → EStateM ε σ β}

theorem Reads.follows (h : Reads m) : Follows R m := fun s =>
  h.wp (fun _ _ => refl_of R s) fun _ _ => refl_of R s

theorem Follows.bind (hm : Follows R m) (hf : ∀ a, Follows R (f a)) :
    Follows R (m >>= f) := fun s =>
  (hm s).bind (fun a s₁ h₁ => (hf a s₁).mono (fun _ _ h₂ => trans_of R h₁ h₂)
    fun _ _ h₂ => trans_of R h₁ h₂) fun _ _ h₁ => h₁

end

end Minirel

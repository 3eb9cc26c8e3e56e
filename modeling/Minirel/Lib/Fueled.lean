-- SUMMARY: Triples for computations that are given fuel.
import Minirel.Lib.WeakestPre
import Mathlib.Order.Lattice

/-!
# Fueled computations

A loop with no bound of its own is given fuel, and raises when it runs out. A triple says
of such a computation that it comes to an end with enough fuel, what it may raise then, and
what holds when it has returned, with whatever fuel.
-/

namespace Minirel

variable {ε σ τ α β : Type}

/-- A computation that is given fuel. -/
abbrev Fueled (ε σ α : Type) := Nat → EStateM ε σ α

/-- With enough fuel it returns or raises one of the given errors, and whenever it has returned
    `Q` holds. -/
def Ends (raises : ε → Prop) (m : Fueled ε σ α) (Q : α → σ → Prop) (s : σ) : Prop :=
  (∃ n, (∃ a s', ∀ fuel ≥ n, m fuel s = .ok a s') ∨
    ∃ e s', raises e ∧ ∀ fuel ≥ n, m fuel s = .error e s') ∧
  ∀ fuel a s', m fuel s = .ok a s' → Q a s'

section
variable {raises : ε → Prop} {m m' : Fueled ε σ α} {Q Q' : α → σ → Prop} {R : β → σ → Prop}
  {s s' : σ} {a : α} {e : ε}

theorem Ends.of_ok (h : ∀ fuel, m fuel s = .ok a s') (hQ : Q a s') : Ends raises m Q s := by
  refine ⟨⟨0, .inl ⟨a, s', fun fuel _ => h fuel⟩⟩, fun fuel a₁ s₁ hm => ?_⟩
  rw [h fuel] at hm
  cases hm
  exact hQ

theorem Ends.of_error (h : ∀ fuel, m fuel s = .error e s') (he : raises e) : Ends raises m Q s := by
  refine ⟨⟨0, .inr ⟨e, s', he, fun fuel _ => h fuel⟩⟩, fun fuel a₁ s₁ hm => ?_⟩
  rw [h fuel] at hm
  cases hm

/-- A computation that needs no fuel. -/
theorem Ends.of_wp {m : EStateM ε σ α} (h : wp m Q (fun e _ => raises e) s) :
    Ends raises (fun _ => m) Q s := by
  cases hm : m s with
  | ok a s' => exact .of_ok (fun _ => hm) (h.ok hm)
  | error e s' => exact .of_error (fun _ => hm) (h.error hm)

theorem Ends.mono (h : Ends raises m Q s) (hQ : ∀ a s', Q a s' → Q' a s') : Ends raises m Q' s :=
  ⟨h.1, fun fuel a s' hm => hQ a s' (h.2 fuel a s' hm)⟩

theorem Ends.imp {raises' : ε → Prop} (h : Ends raises m Q s) (he : ∀ e, raises e → raises' e) :
    Ends raises' m Q s := by
  obtain ⟨⟨n, hend⟩, hQ⟩ := h
  refine ⟨⟨n, ?_⟩, hQ⟩
  rcases hend with hok | ⟨e, s', hraise, herr⟩
  · exact .inl hok
  · exact .inr ⟨e, s', he e hraise, herr⟩

/-- What two computations do from one state. -/
theorem Ends.congr (h : Ends raises m' Q s) (heq : ∀ fuel, m fuel s = m' fuel s) :
    Ends raises m Q s := by
  obtain ⟨⟨n, hend⟩, hQ⟩ := h
  simp only [Ends, heq]
  exact ⟨⟨n, hend⟩, hQ⟩

theorem Ends.bind {f : α → Fueled ε σ β} (h : Ends raises m Q s)
    (hf : ∀ a s', Q a s' → Ends raises (f a) R s') :
    Ends raises (fun fuel => m fuel >>= fun a => f a fuel) R s := by
  obtain ⟨⟨n, hend⟩, hQ⟩ := h
  refine ⟨?_, fun fuel b s₂ hrun => ?_⟩
  · obtain ⟨a, s₁, hm⟩ | ⟨e, s₁, he, hm⟩ := hend
    · obtain ⟨⟨k, hend⟩, -⟩ := hf a s₁ (hQ n a s₁ (hm n le_rfl))
      refine ⟨max n k, ?_⟩
      obtain ⟨b, s₂, hrun⟩ | ⟨e, s₂, he, hrun⟩ := hend
      · refine .inl ⟨b, s₂, fun fuel hle => ?_⟩
        simp only [Bind.bind, EStateM.bind, hm fuel (le_trans (le_max_left n k) hle)]
        exact hrun fuel (le_trans (le_max_right n k) hle)
      · refine .inr ⟨e, s₂, he, fun fuel hle => ?_⟩
        simp only [Bind.bind, EStateM.bind, hm fuel (le_trans (le_max_left n k) hle)]
        exact hrun fuel (le_trans (le_max_right n k) hle)
    · refine ⟨n, .inr ⟨e, s₁, he, fun fuel hle => ?_⟩⟩
      simp only [Bind.bind, EStateM.bind, hm fuel hle]
  · simp only [Bind.bind, EStateM.bind] at hrun
    cases hm : m fuel s with
    | ok a s₁ =>
      rw [hm] at hrun
      exact (hf a s₁ (hQ fuel a s₁ hm)).2 fuel _ _ hrun
    | error e s₁ =>
      rw [hm] at hrun
      cases hrun

/-- A computation that may raise nothing returns. -/
theorem Ends.exists_ok (h : Ends (fun _ => False) m Q s) : ∃ fuel a s', m fuel s = .ok a s' ∧ Q a s' := by
  obtain ⟨⟨n, ⟨a, s', hrun⟩ | ⟨e, s', he, -⟩⟩, hQ⟩ := h
  · exact ⟨n, a, s', hrun n le_rfl, hQ n a s' (hrun n le_rfl)⟩
  · exact he.elim

/-- A computation that may raise nothing, and returns one thing only, returns it. -/
theorem Ends.returns (h : Ends (fun _ => False) m (fun found _ => found = a) s) :
    (∃ n s', ∀ fuel ≥ n, m fuel s = .ok a s') ∧ ∀ fuel found s', m fuel s = .ok found s' → found = a := by
  obtain ⟨⟨n, ⟨found, s', hrun⟩ | ⟨e, s', he, -⟩⟩, hfound⟩ := h
  · obtain rfl := hfound n found s' (hrun n le_rfl)
    exact ⟨⟨n, s', hrun⟩, hfound⟩
  · exact he.elim

/-- One round of a loop uses one unit of fuel. -/
theorem Ends.succ (h : Ends raises m' Q s) (hsucc : ∀ fuel, m (fuel + 1) s = m' fuel s)
    (hzero : ∃ e s', m 0 s = .error e s') : Ends raises m Q s := by
  obtain ⟨⟨n, hend⟩, hQ⟩ := h
  have hround : ∀ {r}, (∀ fuel ≥ n, m' fuel s = r) → ∀ fuel ≥ n + 1, m fuel s = r := by
    intro r hrun fuel hle
    obtain ⟨fuel, rfl⟩ : ∃ k, fuel = k + 1 := ⟨fuel - 1, by omega⟩
    rw [hsucc]
    exact hrun fuel (by omega)
  refine ⟨⟨n + 1, ?_⟩, fun fuel a s' hm => ?_⟩
  · obtain ⟨a, s', hrun⟩ | ⟨e, s', he, hrun⟩ := hend
    · exact .inl ⟨a, s', hround hrun⟩
    · exact .inr ⟨e, s', he, hround hrun⟩
  · cases fuel with
    | zero =>
      obtain ⟨e, s₁, herr⟩ := hzero
      rw [herr] at hm
      cases hm
    | succ fuel =>
      rw [hsucc] at hm
      exact hQ fuel a s' hm

/-- The same run on a part of the state. -/
theorem Ends.zoom {m : Fueled ε σ α} {m' : Fueled ε τ α} (put : σ → τ) {t : τ} {Q : α → τ → Prop}
    (hput : ∀ fuel, m' fuel t = match m fuel s with
      | .ok a s' => .ok a (put s')
      | .error e s' => .error e (put s'))
    (h : Ends raises m (fun a s' => Q a (put s')) s) : Ends raises m' Q t := by
  obtain ⟨⟨n, hend⟩, hQ⟩ := h
  refine ⟨⟨n, ?_⟩, fun fuel a t' hm => ?_⟩
  · obtain ⟨a, s', hrun⟩ | ⟨e, s', he, hrun⟩ := hend
    · exact .inl ⟨a, put s', fun fuel hle => by rw [hput, hrun fuel hle]⟩
    · exact .inr ⟨e, put s', he, fun fuel hle => by rw [hput, hrun fuel hle]⟩
  · rw [hput] at hm
    cases hrun : m fuel s with
    | ok b s' =>
      rw [hrun] at hm
      cases hm
      exact hQ fuel _ _ hrun
    | error e s' =>
      rw [hrun] at hm
      cases hm

end

end Minirel

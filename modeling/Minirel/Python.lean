-- SUMMARY: The Python exceptions the modelled code raises.
import Mathlib.Algebra.Group.Int.Defs
import Mathlib.Algebra.GroupWithZero.Nat
import Mathlib.Data.Finset.Basic

/-!
# Python exceptions

The exceptions that reach a caller, with the texts the repository writes into
them. Texts that come from the interpreter itself are left out.
-/

namespace Minirel

/-- An exception, by class. The last two are not Python exceptions: `diverges`
    marks a loop that never ends on the pages it reads, `foreignPage` bytes read
    through another layout than the one they were written with, which the model
    does not have. -/
inductive PyError where
  | valueError (msg : String)
  | runtimeError (msg : String)
  | keyError (msg : String)
  | typeError
  | indexError
  | overflowError
  | structError
  | unicodeDecodeError
  | writeConflictError (msg : String)
  | duplicateKeyError (msg : String)
  | tableAlreadyExistsError (name : String)
  | tableNotFoundError (name : String)
  | columnNotFoundError (msg : String)
  | ambiguousColumnError (msg : String)
  | bufferPoolFullError (msg : String)
  | lexError (msg : String)
  | parseError (msg : String)
  | diverges
  | foreignPage
  deriving DecidableEq, Repr

theorem bind_eq_ok {α β : Type} {x : Except PyError α} {f : α → Except PyError β} {b : β} :
    x >>= f = .ok b ↔ ∃ a, x = .ok a ∧ f a = .ok b := by
  cases x <;> simp [bind, Except.bind]

theorem bind_eq_error {α β : Type} {x : Except PyError α} {f : α → Except PyError β} {e : PyError} :
    x >>= f = .error e ↔ x = .error e ∨ ∃ a, x = .ok a ∧ f a = .error e := by
  cases x <;> simp [bind, Except.bind]

theorem toOption_eq_some {ε α : Type} {x : Except ε α} {a : α} : x.toOption = some a ↔ x = .ok a := by
  cases x <;> simp [Except.toOption]

theorem mapM_eq_ok {α β : Type} {f : α → Except PyError β} {l : List α} {l' : List β} :
    l.mapM f = .ok l' ↔ l.map f = l'.map .ok := by
  induction l generalizing l' with
  | nil => simp [pure, Except.pure, eq_comm]
  | cons x l ih =>
    rw [List.mapM_cons, bind_eq_ok, List.map_cons]
    constructor
    · rintro ⟨y, hy, h⟩
      obtain ⟨ys, hys, h⟩ := bind_eq_ok.mp h
      cases h
      rw [hy, ih.mp hys, List.map_cons]
    · intro h
      cases l' with
      | nil => cases h
      | cons y ys =>
        rw [List.map_cons, List.cons.injEq] at h
        exact ⟨y, h.1, bind_eq_ok.mpr ⟨ys, ih.mpr h.2, rfl⟩⟩

/-- A list is not mapped because of one of its elements. -/
theorem exists_of_mapM_error {α β : Type} {f : α → Except PyError β} {l : List α} {e : PyError}
    (h : l.mapM f = .error e) : ∃ x ∈ l, f x = .error e := by
  induction l with
  | nil => cases h
  | cons x l ih =>
    rw [List.mapM_cons] at h
    rcases bind_eq_error.mp h with hx | ⟨y, -, h⟩
    · exact ⟨x, List.mem_cons_self, hx⟩
    · rcases bind_eq_error.mp h with hl | ⟨ys, -, h⟩
      · obtain ⟨z, hz, hfz⟩ := ih hl
        exact ⟨z, List.mem_cons_of_mem x hz, hfz⟩
      · cases h

end Minirel

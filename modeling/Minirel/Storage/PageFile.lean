-- SUMMARY: The pages of the data file as the buffer pool shows them, and the monad of page accesses.
import Minirel.Storage.Page
import Minirel.Lib.WeakestPre
import Mathlib.Data.List.Basic

/-!
# The page file

A page is kept at the level of its layout: what each of the four layouts stores
in it, not its bytes. `ε` is the type of encoded index keys and `τ` the type of
heap tuples. Frames, pins and write-back are the buffer pool's own business: a
page access here reads and writes the page's latest contents, and the file as
it is after a crash is a state of its own.
-/

namespace Minirel

/-- A slotted heap page: its slot directory (`none` is a freed slot), where its
    tuple data starts, and the next page of the chain. -/
structure HeapPage (τ : Type) where
  slots : List (Option τ)
  freePtr : Nat
  nextPage : Nat
  deriving DecidableEq, Repr

/-- What a page holds. `zero` is a page as `allocate_page` appends it; `torn` one
    whose last write raised half-way. -/
inductive Page (ε τ : Type) where
  | zero
  | heap (page : HeapPage τ)
  | leaf (entries : List (ε × RID)) (nextLeaf : Nat)
  | internal (child : Nat) (rest : List (ε × Nat))
  | torn
  deriving DecidableEq, Repr

abbrev PageFile (ε τ : Type) := List (Page ε τ)

/-- A computation over the page file. What it has written before it raises stays
    written. -/
abbrev PageM (ε τ : Type) := EStateM PyError (PageFile ε τ)

variable {ε τ α β : Type}

def PageM.lift (x : Except PyError α) : PageM ε τ α := fun s =>
  match x with
  | .ok a => .ok a s
  | .error e => .error e s

/-- `fetch_page`: the page must exist. -/
def fetchPage (pageId : Nat) : PageM ε τ (Page ε τ) := fun s =>
  match s[pageId]? with
  | some page => .ok page s
  | none => .error (.valueError s!"page {pageId} does not exist (num_pages={s.length})") s

/-- `new_page`: grow the file by one zero-filled page. -/
def newPage : PageM ε τ Nat := fun s => .ok s.length (s ++ [.zero])

/-- Replace the contents of a page, or leave it torn if laying them out fails. -/
def putPage (pageId : Nat) (contents : Except PyError (Page ε τ)) : PageM ε τ Unit := fun s =>
  match contents with
  | .ok page => .ok () (s.set pageId page)
  | .error e => .error e (s.set pageId .torn)

/-! ## Running a computation -/

@[simp] theorem PageM.pure_apply (a : α) (s : PageFile ε τ) :
    (pure a : PageM ε τ α) s = .ok a s := rfl

@[simp] theorem PageM.throw_apply (e : PyError) (s : PageFile ε τ) :
    (throw e : PageM ε τ α) s = .error e s := rfl

@[simp] theorem PageM.lift_ok (a : α) (s : PageFile ε τ) :
    (PageM.lift (.ok a) : PageM ε τ α) s = .ok a s := rfl

@[simp] theorem PageM.lift_error (e : PyError) (s : PageFile ε τ) :
    (PageM.lift (.error e) : PageM ε τ α) s = .error e s := rfl

theorem PageM.lift_ok_bind (a : α) (f : α → PageM ε τ β) : (PageM.lift (.ok a) >>= f) = f a := rfl

theorem PageM.lift_eq_ok {x : Except PyError α} {s s' : PageFile ε τ} {a : α} :
    PageM.lift x s = .ok a s' ↔ x = .ok a ∧ s' = s := by
  cases x with
  | ok b =>
    simp only [lift_ok, EStateM.Result.ok.injEq, Except.ok.injEq]
    exact and_congr_right' eq_comm
  | error e => simp

theorem fetchPage_eq {pageId : Nat} {s : PageFile ε τ} {page : Page ε τ}
    (h : s[pageId]? = some page) : fetchPage pageId s = .ok page s := by
  simp [fetchPage, h]

theorem fetchPage_eq_ok {pageId : Nat} {s s' : PageFile ε τ} {page : Page ε τ} :
    fetchPage pageId s = .ok page s' ↔ s[pageId]? = some page ∧ s' = s := by
  unfold fetchPage
  cases h : s[pageId]? with
  | none => simp
  | some p =>
    simp only [EStateM.Result.ok.injEq, Option.some.injEq]
    exact and_congr_right' eq_comm

@[simp] theorem newPage_apply (s : PageFile ε τ) :
    newPage s = .ok s.length (s ++ [Page.zero]) := rfl

@[simp] theorem putPage_ok (pageId : Nat) (page : Page ε τ) (s : PageFile ε τ) :
    putPage pageId (.ok page) s = .ok () (s.set pageId page) := rfl

theorem putPage_eq_ok {pageId : Nat} {x : Except PyError (Page ε τ)} {s s' : PageFile ε τ} :
    putPage pageId x s = .ok () s' ↔ ∃ page, x = .ok page ∧ s' = s.set pageId page := by
  cases x with
  | ok page => simp [putPage, eq_comm]
  | error e => simp [putPage]

theorem Reads.lift (x : Except PyError α) : Reads (PageM.lift x : PageM ε τ α) := fun s => by
  cases x <;> rfl

theorem Reads.fetchPage (pageId : Nat) : Reads (fetchPage pageId : PageM ε τ (Page ε τ)) := by
  intro s
  unfold Minirel.wp Minirel.fetchPage
  cases s[pageId]? <;> rfl

theorem wp_lift {x : Except PyError α} {Q : α → PageFile ε τ → Prop}
    {E : PyError → PageFile ε τ → Prop} {s : PageFile ε τ} :
    wp (PageM.lift x) Q E s ↔ (∀ a, x = .ok a → Q a s) ∧ ∀ e, x = .error e → E e s := by
  cases x <;> simp [wp, PageM.lift]

theorem wp_putPage {pageId : Nat} {x : Except PyError (Page ε τ)} {Q : Unit → PageFile ε τ → Prop}
    {E : PyError → PageFile ε τ → Prop} {s : PageFile ε τ} :
    wp (putPage pageId x) Q E s ↔
      (∀ page, x = .ok page → Q () (s.set pageId page)) ∧
        ∀ e, x = .error e → E e (s.set pageId .torn) := by
  cases x <;> simp [wp, putPage]

/-! ## The file after a computation -/

/-- The pages after a computation, whether it has returned or raised. -/
def PageM.after (m : PageM ε τ α) (s : PageFile ε τ) : PageFile ε τ :=
  match m s with
  | .ok _ s' => s'
  | .error _ s' => s'

theorem PageM.after_ok {m : PageM ε τ α} {s s' : PageFile ε τ} {a : α} (h : m s = .ok a s') :
    m.after s = s' := by
  simp only [after, h]

theorem PageM.after_error {m : PageM ε τ α} {s s' : PageFile ε τ} {e : PyError}
    (h : m s = .error e s') : m.after s = s' := by
  simp only [after, h]

theorem PageM.after_congr {m m' : PageM ε τ α} {s s' : PageFile ε τ} (h : m s = m' s') :
    m.after s = m'.after s' := by
  simp only [after, h]

theorem PageM.after_bind_ok {m : PageM ε τ α} {f : α → PageM ε τ β} {s s₁ : PageFile ε τ} {a : α}
    (h : m s = .ok a s₁) : (m >>= f).after s = (f a).after s₁ := by
  simp only [after, run_bind_ok h]

theorem PageM.after_bind_error {m : PageM ε τ α} {f : α → PageM ε τ β} {s s₁ : PageFile ε τ}
    {e : PyError} (h : m s = .error e s₁) : (m >>= f).after s = s₁ := by
  simp only [after, run_bind_error h]

/-- The file never shrinks. -/
def Extends (m : PageM ε τ α) : Prop := ∀ s, s.length ≤ (m.after s).length

namespace Extends

theorem of_reads {m : PageM ε τ α} (h : ∀ s, m.after s = s) : Extends m := fun s => (h s).symm ▸ le_rfl

theorem pure (a : α) : Extends (pure a : PageM ε τ α) := of_reads fun _ => rfl

theorem throw (e : PyError) : Extends (throw e : PageM ε τ α) := of_reads fun _ => rfl

theorem lift (x : Except PyError α) : Extends (PageM.lift x : PageM ε τ α) := of_reads fun _ => by
  cases x <;> rfl

theorem fetchPage (pageId : Nat) : Extends (fetchPage pageId : PageM ε τ (Page ε τ)) :=
  of_reads fun s => by
    simp only [PageM.after, Minirel.fetchPage]
    cases s[pageId]? <;> rfl

theorem newPage : Extends (newPage : PageM ε τ Nat) := fun s => by
  simp [PageM.after, newPage_apply]

theorem putPage (pageId : Nat) (x : Except PyError (Page ε τ)) : Extends (putPage pageId x) :=
  fun s => by
    cases x <;> simp [PageM.after, Minirel.putPage]

/-- What comes next does not shrink the file. -/
theorem le_bind (m : PageM ε τ α) {f : α → PageM ε τ β} (hf : ∀ a, Extends (f a)) (s : PageFile ε τ) :
    (m.after s).length ≤ ((m >>= f).after s).length := by
  cases h : m s with
  | ok a s₁ =>
    rw [PageM.after_ok h, PageM.after_bind_ok h]
    exact hf a s₁
  | error e s₁ => rw [PageM.after_error h, PageM.after_bind_error h]

theorem bind {m : PageM ε τ α} {f : α → PageM ε τ β} (hm : Extends m) (hf : ∀ a, Extends (f a)) :
    Extends (m >>= f) := fun s => (hm s).trans (le_bind m hf s)

end Extends

theorem Reads.extends {m : PageM ε τ α} (h : Reads m) : Extends m := by
  refine Extends.of_reads fun s => ?_
  cases hm : m s with
  | ok a s' => rw [PageM.after_ok hm, h.ok hm]
  | error e s' => rw [PageM.after_error hm, h.error hm]

/-- The file grows by at most `n` pages. -/
def Takes (n : Nat) (m : PageM ε τ α) : Prop := ∀ s, (m.after s).length ≤ s.length + n

namespace Takes
variable {n k : Nat}

theorem of_reads {m : PageM ε τ α} (h : ∀ s, m.after s = s) : Takes 0 m := fun s => (h s).symm ▸ le_rfl

theorem pure (a : α) : Takes 0 (pure a : PageM ε τ α) := of_reads fun _ => rfl

theorem lift (x : Except PyError α) : Takes 0 (PageM.lift x : PageM ε τ α) := of_reads fun _ => by
  cases x <;> rfl

theorem fetchPage (pageId : Nat) : Takes 0 (fetchPage pageId : PageM ε τ (Page ε τ)) :=
  of_reads fun s => by
    simp only [PageM.after, Minirel.fetchPage]
    cases s[pageId]? <;> rfl

theorem newPage : Takes 1 (newPage : PageM ε τ Nat) := fun s => by
  simp [PageM.after, newPage_apply]

theorem putPage (pageId : Nat) (x : Except PyError (Page ε τ)) : Takes 0 (putPage pageId x) :=
  fun s => by
    cases x <;> simp [PageM.after, Minirel.putPage]

theorem mono {m : PageM ε τ α} (hm : Takes n m) (h : n ≤ k) : Takes k m :=
  fun s => (hm s).trans (Nat.add_le_add_left h _)

theorem bind {m : PageM ε τ α} {f : α → PageM ε τ β} (hm : Takes n m) (hf : ∀ a, Takes k (f a)) :
    Takes (n + k) (m >>= f) := by
  intro s
  have hs := hm s
  cases h : m s with
  | ok a s₁ =>
    rw [PageM.after_ok h] at hs
    rw [PageM.after_bind_ok h]
    have := hf a s₁
    omega
  | error e s₁ =>
    rw [PageM.after_error h] at hs
    rw [PageM.after_bind_error h]
    omega

end Takes

/-! ## Pages of one's own -/

/-- Only pages `own` have changed, and the file has perhaps grown. -/
structure Stays (own : Nat → Prop) (s s' : PageFile ε τ) : Prop where
  length_le : s.length ≤ s'.length
  same : ∀ p < s.length, ¬own p → s'[p]? = s[p]?

/-- The pages of `own` and those handed out between two states. -/
def claimed (own : Nat → Prop) (s s' : PageFile ε τ) (p : Nat) : Prop :=
  own p ∨ s.length ≤ p ∧ p < s'.length

/-! ## What a computation writes -/

/-- A computation that returns has left `P` on every page it changed. -/
def Writes (P : Page ε τ → Prop) (m : PageM ε τ α) : Prop :=
  ∀ s a s', m s = .ok a s' → ∀ p : Nat, s'[p]? ≠ s[p]? → ∃ page, s'[p]? = some page ∧ P page

namespace Writes
variable {P : Page ε τ → Prop}

theorem of_reads {m : PageM ε τ α} (h : ∀ s a s', m s = .ok a s' → s' = s) : Writes P m :=
  fun s a s' hrun p hp => absurd (by rw [h s a s' hrun]) hp

theorem pure (a : α) : Writes P (pure a : PageM ε τ α) := of_reads fun s _ s' h => by
  cases h
  rfl

theorem throw (e : PyError) : Writes P (throw e : PageM ε τ α) := of_reads fun s _ s' h => by
  cases h

theorem lift (x : Except PyError α) : Writes P (PageM.lift x : PageM ε τ α) :=
  of_reads fun _ _ _ h => (PageM.lift_eq_ok.mp h).2

theorem fetchPage (pageId : Nat) : Writes P (fetchPage pageId : PageM ε τ (Page ε τ)) :=
  of_reads fun _ _ _ h => (fetchPage_eq_ok.mp h).2

theorem get : Writes P (MonadState.get : PageM ε τ (PageFile ε τ)) := of_reads fun s _ s' h => by
  cases h
  rfl

/-- A page that the first part changed and the second did not is as the first part
    left it. -/
theorem bind {m : PageM ε τ α} {f : α → PageM ε τ β} (hm : Writes P m) (hf : ∀ a, Writes P (f a)) :
    Writes P (m >>= f) := by
  intro s b s' hrun p hp
  obtain ⟨a, s₁, hm₁, hf₁⟩ := run_bind_eq_ok.mp hrun
  by_cases h : s'[p]? = s₁[p]?
  · rw [h] at hp ⊢
    exact hm s a s₁ hm₁ p hp
  · exact hf a s₁ b s' hf₁ p h

theorem map {m : PageM ε τ α} (f : α → β) (hm : Writes P m) : Writes P (f <$> m) := by
  rw [map_eq_pure_bind]
  exact hm.bind fun a => .pure _

theorem putPage {pageId : Nat} {x : Except PyError (Page ε τ)} (h : ∀ page, x = .ok page → P page) :
    Writes P (putPage pageId x : PageM ε τ Unit) := by
  intro s a s' hrun p hp
  obtain ⟨page, rfl, rfl⟩ := putPage_eq_ok.mp hrun
  by_cases hpid : pageId = p
  · subst hpid
    rw [List.getElem?_set_self'] at hp ⊢
    cases hs : s[pageId]? with
    | none => simp [hs] at hp
    | some old => exact ⟨page, by simp, h page rfl⟩
  · exact absurd (List.getElem?_set_ne hpid) hp

end Writes

end Minirel

-- SUMMARY: Parsers over a list of tokens: what they do with words they are given, and what they have consumed.
import Minirel.Lib.WeakestPre

/-!
# Parsing

A parser is a computation over the tokens that are left. Two rules systems belong to it.
`Parses` runs a parser forwards: given the words of a phrase and something after them that
cannot go on the phrase, it takes just these words off. `Yields` goes the other way: what a
parser has taken off when it returns is related to what it returns, and it raises no other
errors than some.
-/

namespace Minirel

variable {ε τ ω α β : Type}

/-- There is a first word, and it has `P`. -/
def Starts (P : ω → Prop) : List ω → Prop
  | [] => False
  | w :: _ => P w

namespace Starts
variable {P P' : ω → Prop} {ws ws' : List ω}

theorem exists_cons (h : Starts P ws) : ∃ w tail, ws = w :: tail ∧ P w := by
  cases ws with
  | nil => exact h.elim
  | cons w tail => exact ⟨w, tail, rfl, h⟩

theorem mono (h : Starts P ws) (hP : ∀ w, P w → P' w) : Starts P' ws := by
  obtain ⟨w, tail, rfl, h⟩ := h.exists_cons
  exact hP w h

theorem append (h : Starts P ws) : Starts P (ws ++ ws') := by
  obtain ⟨w, tail, rfl, h⟩ := h.exists_cons
  exact h

end Starts

/-! ## Forwards -/

/-- On tokens that read `ws`, followed by words with `F`, the parser takes these off and goes
    on as `q`. -/
def Parses (word : τ → ω) (p : EStateM ε (List τ) α) (ws : List ω) (q : EStateM ε (List τ) α)
    (F : List ω → Prop) : Prop :=
  ∀ ts rest, ts.map word = ws → F (rest.map word) → p (ts ++ rest) = q rest

namespace Parses
variable {word : τ → ω} {p q r : EStateM ε (List τ) α} {f : α → EStateM ε (List τ) β} {a : α}
  {s : EStateM ε (List τ) β} {ws ws₁ ws₂ : List ω} {w : ω} {F F₁ F₂ : List ω → Prop}

theorem refl : Parses word p [] p F := fun ts rest hts _ => by
  rw [List.map_eq_nil_iff.mp hts]
  rfl

theorem mono (h : Parses word p ws q F₁) (hF : ∀ rest, F₂ rest → F₁ rest) : Parses word p ws q F₂ :=
  fun ts rest hts hrest => h ts rest hts (hF _ hrest)

theorem trans (h₁ : Parses word p ws₁ q F₁) (h₂ : Parses word q ws₂ r F₂)
    (hF : ∀ rest, F₂ rest → F₁ (ws₂ ++ rest)) : Parses word p (ws₁ ++ ws₂) r F₂ := by
  intro ts rest hts hrest
  obtain ⟨ts₁, ts₂, rfl, rfl, rfl⟩ := List.map_eq_append_iff.mp hts
  have hfollow : F₁ ((ts₂ ++ rest).map word) := by
    rw [List.map_append]
    exact hF _ hrest
  rw [List.append_assoc, h₁ ts₁ (ts₂ ++ rest) rfl hfollow, h₂ ts₂ rest rfl hrest]

/-- What is done after a parser that goes on is done after what it goes on as. -/
theorem bind (h : Parses word p ws q F) : Parses word (p >>= f) ws (q >>= f) F :=
  fun ts rest hts hrest => by
    simp only [Bind.bind, EStateM.bind, h ts rest hts hrest]

/-- A phrase has been read: the parser goes on with what it stands for. -/
theorem seq (h₁ : Parses word p ws₁ (pure a) F₁) (h₂ : Parses word (f a) ws₂ s F₂)
    (hF : ∀ rest, F₂ rest → F₁ (ws₂ ++ rest)) : Parses word (p >>= f) (ws₁ ++ ws₂) s F₂ :=
  Parses.trans (q := f a) h₁.bind h₂ hF

/-- The parser looks at what comes and goes on as another. -/
theorem look (h : ∀ ts, F₁ (ts.map word) → p ts = q ts) (hq : Parses word q ws r F₂)
    (hF : ∀ rest, F₂ rest → F₁ (ws ++ rest)) : Parses word p ws r F₂ := by
  intro ts rest hts hrest
  have hfollow : F₁ ((ts ++ rest).map word) := by
    rw [List.map_append, hts]
    exact hF _ hrest
  rw [h _ hfollow, hq ts rest hts hrest]

/-- The first token is taken off. -/
theorem of_token {g : τ → EStateM ε (List τ) α} (h : ∀ t rest, word t = w → p (t :: rest) = g t rest)
    (hg : ∀ t, word t = w → Parses word (g t) ws q F) : Parses word p (w :: ws) q F := by
  intro ts rest hts hrest
  obtain ⟨t, ts, rfl, ht, htail⟩ := List.map_eq_cons_iff.mp hts
  rw [List.cons_append, h t _ ht, hg t ht ts rest htail hrest]

end Parses

/-! ## Backwards -/

/-- On `ts` the parser returns, having taken off tokens with `S` that are related to what it
    returns, or it raises one of the errors `E`. -/
def Yields (S : τ → Prop) (E : ε → Prop) (p : EStateM ε (List τ) α) (Q : α → List τ → Prop)
    (ts : List τ) : Prop :=
  wp p (fun a rest => ∃ pre, ts = pre ++ rest ∧ (∀ t ∈ pre, S t) ∧ Q a pre) (fun e _ => E e) ts

namespace Yields
variable {S : τ → Prop} {E : ε → Prop} {p q : EStateM ε (List τ) α}
  {f : α → EStateM ε (List τ) β} {Q Q' : α → List τ → Prop} {R : β → List τ → Prop}
  {ts ts' : List τ} {t : τ} {a : α} {e : ε}

theorem of_error (h : p ts = .error e ts') (he : E e) : Yields S E p Q ts := (wp_of_error h).mpr he

/-- The parser goes on as another. -/
theorem look (h : p ts = q ts) (hq : Yields S E q Q ts) : Yields S E p Q ts := by
  unfold Yields wp at hq ⊢
  rwa [h]

/-- The first token is taken off. -/
theorem step (h : p (t :: ts) = q ts) (ht : S t)
    (hq : Yields S E q (fun a post => Q a (t :: post)) ts) : Yields S E p Q (t :: ts) := by
  have hq' : wp q (fun a rest => ∃ pre, t :: ts = pre ++ rest ∧ (∀ t ∈ pre, S t) ∧ Q a pre)
      (fun e _ => E e) ts :=
    wp.mono hq (fun a rest ⟨post, hts, hpost, ha⟩ =>
      ⟨t :: post, by rw [hts]; rfl, List.forall_mem_cons.mpr ⟨ht, hpost⟩, ha⟩) fun _ _ he => he
  unfold Yields wp at *
  rwa [h]

theorem pure (h : Q a []) : Yields S E (pure a : EStateM ε (List τ) α) Q ts :=
  wp_pure.mpr ⟨[], rfl, fun _ ht => absurd ht List.not_mem_nil, h⟩

theorem throw (h : E e) : Yields S E (throw e : EStateM ε (List τ) α) Q ts := wp_throw.mpr h

theorem mono (h : Yields S E p Q ts) (hQ : ∀ a pre, Q a pre → Q' a pre) : Yields S E p Q' ts :=
  wp.mono h (fun _ _ ⟨pre, hts, hpre, ha⟩ => ⟨pre, hts, hpre, hQ _ _ ha⟩) fun _ _ he => he

/-- What is known of the tokens is known of what is taken off. -/
theorem mono_pre (h : Yields S E p Q ts)
    (hQ : ∀ a pre rest, ts = pre ++ rest → Q a pre → Q' a pre) : Yields S E p Q' ts :=
  wp.mono h (fun _ _ ⟨pre, hts, hpre, ha⟩ => ⟨pre, hts, hpre, hQ _ _ _ hts ha⟩) fun _ _ he => he

/-- What the second parser owes depends on what the first has taken off. -/
theorem bind (h : Yields S E p Q ts)
    (hf : ∀ a pre rest, ts = pre ++ rest → (∀ t ∈ pre, S t) → Q a pre →
      Yields S E (f a) (fun b post => R b (pre ++ post)) rest) : Yields S E (p >>= f) R ts := by
  refine wp.bind h (fun a rest ⟨pre, hts, hpre, ha⟩ => ?_) fun _ _ he => he
  refine wp.mono (hf a pre rest hts hpre ha) (fun b rest' ⟨post, hrest, hpost, hb⟩ => ?_)
    fun _ _ he => he
  exact ⟨pre ++ post, by rw [hts, hrest, List.append_assoc],
    List.forall_mem_append.mpr ⟨hpre, hpost⟩, hb⟩

theorem ok (h : Yields S E p Q ts) {rest : List τ} (hrun : p ts = .ok a rest) :
    ∃ pre, ts = pre ++ rest ∧ (∀ t ∈ pre, S t) ∧ Q a pre := wp.ok h hrun

end Yields

end Minirel

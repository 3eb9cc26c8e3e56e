-- SUMMARY: Regular expressions matched by backtracking, and the languages behind them.
import Mathlib.Computability.Language

/-!
# Regular expressions

A matcher that backtracks tries the ways to match one after the other, and the first is
the match. `ways` lists what each of them leaves of the input, in this order: the left
alternative comes first, and a repetition goes on for as long as it can.
-/

namespace Minirel

inductive Regex (σ : Type) where
  | one (p : σ → Bool)
  | seq (r s : Regex σ)
  | alt (r s : Regex σ)
  | star (r : Regex σ)

namespace Regex

variable {σ : Type}

/-- A greedy repetition. An iteration takes at least one symbol. -/
def repeated (ways : List σ → List (List σ)) : Nat → List σ → List (List σ)
  | 0, input => [input]
  | fuel + 1, input =>
    (ways input).flatMap (fun rest =>
      if rest.length < input.length then repeated ways fuel rest else []) ++ [input]

/-- What is left of the input after each way to match, the preferred way first. -/
def ways : Regex σ → List σ → List (List σ)
  | one _, [] => []
  | one p, c :: rest => if p c then [rest] else []
  | seq r s, input => (r.ways input).flatMap s.ways
  | alt r s, input => r.ways input ++ s.ways input
  | star r, input => repeated r.ways input.length input

/-- What the match leaves of the input. -/
def match? (r : Regex σ) (input : List σ) : Option (List σ) := (r.ways input).head?

def plus (r : Regex σ) : Regex σ := seq r (star r)

/-! ## Languages -/

/-- The words of an expression. -/
def language : Regex σ → Language σ
  | one p => {w | ∃ c, p c ∧ w = [c]}
  | seq r s => r.language * s.language
  | alt r s => r.language + s.language
  | star r => KStar.kstar r.language

/-- What a way to match takes off is a word of the expression. -/
theorem exists_of_mem_repeated {ways : List σ → List (List σ)} {l : Language σ}
    (hways : ∀ input, ∀ rest ∈ ways input, ∃ text ∈ l, input = text ++ rest) (fuel : Nat) :
    ∀ input, ∀ rest ∈ repeated ways fuel input, ∃ text ∈ KStar.kstar l, input = text ++ rest := by
  induction fuel with
  | zero =>
    intro input rest hrest
    obtain rfl := List.mem_singleton.mp hrest
    exact ⟨[], Language.nil_mem_kstar l, rfl⟩
  | succ fuel ih =>
    intro input rest hrest
    rcases List.mem_append.mp hrest with hgo | hstop
    · obtain ⟨mid, hmid, hnext⟩ := List.mem_flatMap.mp hgo
      split at hnext
      · obtain ⟨text, htext, rfl⟩ := hways input mid hmid
        obtain ⟨more, hmore, rfl⟩ := ih mid rest hnext
        refine ⟨text ++ more, ?_, (List.append_assoc ..).symm⟩
        rw [← Language.one_add_self_mul_kstar_eq_kstar]
        exact Or.inr (Language.append_mem_mul htext hmore)
      · cases hnext
    · obtain rfl := List.mem_singleton.mp hstop
      exact ⟨[], Language.nil_mem_kstar l, rfl⟩

theorem exists_of_mem_ways (r : Regex σ) :
    ∀ input, ∀ rest ∈ r.ways input, ∃ text ∈ r.language, input = text ++ rest := by
  induction r with
  | one p =>
    intro input rest hrest
    cases input with
    | nil => cases hrest
    | cons c input =>
      simp only [ways] at hrest
      split at hrest
      · rename_i hc
        obtain rfl := List.mem_singleton.mp hrest
        exact ⟨[c], ⟨c, hc, rfl⟩, rfl⟩
      · cases hrest
  | seq r s ihr ihs =>
    intro input rest hrest
    obtain ⟨mid, hmid, hnext⟩ := List.mem_flatMap.mp hrest
    obtain ⟨text, htext, rfl⟩ := ihr input mid hmid
    obtain ⟨more, hmore, rfl⟩ := ihs mid rest hnext
    exact ⟨text ++ more, Language.append_mem_mul htext hmore, (List.append_assoc ..).symm⟩
  | alt r s ihr ihs =>
    intro input rest hrest
    rcases List.mem_append.mp hrest with hleft | hright
    · obtain ⟨text, htext, heq⟩ := ihr input rest hleft
      exact ⟨text, Or.inl htext, heq⟩
    · obtain ⟨text, htext, heq⟩ := ihs input rest hright
      exact ⟨text, Or.inr htext, heq⟩
  | star r ih =>
    intro input
    exact exists_of_mem_repeated ih input.length input

/-- What the match takes off is a word of the expression. -/
theorem exists_of_match? {r : Regex σ} {input rest : List σ} (h : r.match? input = some rest) :
    ∃ text ∈ r.language, input = text ++ rest :=
  exists_of_mem_ways r input rest (List.mem_of_mem_head? h)

/-- The words of a repeated symbol. -/
theorem forall_of_mem_star_one {p : σ → Bool} {text : List σ}
    (h : text ∈ (star (one p)).language) : ∀ c ∈ text, p c = true := by
  obtain ⟨words, rfl, hwords⟩ := Language.mem_kstar.mp h
  intro c hc
  obtain ⟨w, hw, hcw⟩ := List.mem_flatten.mp hc
  obtain ⟨c', hc', rfl⟩ := hwords w hw
  obtain rfl := List.mem_singleton.mp hcw
  exact hc'

theorem of_mem_plus_one {p : σ → Bool} {text : List σ} (h : text ∈ (plus (one p)).language) :
    text ≠ [] ∧ ∀ c ∈ text, p c = true := by
  obtain ⟨first, ⟨c, hc, rfl⟩, more, hmore, rfl⟩ := Language.mem_mul.mp h
  exact ⟨List.cons_ne_nil _ _, List.forall_mem_cons.mpr ⟨hc, forall_of_mem_star_one hmore⟩⟩

/-- The expression takes at least one symbol. -/
def takesSome : Regex σ → Bool
  | one _ => true
  | seq r s => r.takesSome || s.takesSome
  | alt r s => r.takesSome && s.takesSome
  | star _ => false

theorem ne_nil_of_takesSome {r : Regex σ} (h : r.takesSome) {text : List σ}
    (htext : text ∈ r.language) : text ≠ [] := by
  induction r generalizing text with
  | one p =>
    obtain ⟨c, -, rfl⟩ := htext
    exact List.cons_ne_nil _ _
  | seq r s ihr ihs =>
    obtain ⟨a, ha, b, hb, rfl⟩ := Language.mem_mul.mp htext
    rcases (Bool.or_eq_true _ _).mp h with hr | hs
    · exact List.append_ne_nil_of_left_ne_nil (ihr hr ha) b
    · exact List.append_ne_nil_of_right_ne_nil a (ihs hs hb)
  | alt r s ihr ihs =>
    obtain ⟨hr, hs⟩ := (Bool.and_eq_true _ _).mp h
    rcases htext with hleft | hright
    · exact ihr hr hleft
    · exact ihs hs hright
  | star r ih => cases h

/-! ## The match -/

section
variable {r s : Regex σ} {p : σ → Bool} {c : σ} {input mid rest : List σ}

theorem head?_flatMap {α β : Type} {f : α → List β} {l : List α} {a : α} {b : β}
    (hl : l.head? = some a) (hf : (f a).head? = some b) : (l.flatMap f).head? = some b := by
  obtain ⟨tail, rfl⟩ := List.head?_eq_some_iff.mp hl
  rw [List.flatMap_cons, List.head?_append, hf]
  rfl

theorem ways_one_of_not (h : p c = false) : (one p).ways (c :: rest) = [] := by simp [ways, h]

theorem ways_seq_of_nil (h : r.ways input = []) : (seq r s).ways input = [] := by
  rw [ways, h, List.flatMap_nil]

theorem match?_one (h : p c = true) : (one p).match? (c :: rest) = some rest := by
  simp [match?, ways, h]

theorem match?_seq (hr : r.match? input = some mid) (hs : s.match? mid = some rest) :
    (seq r s).match? input = some rest := head?_flatMap hr hs

theorem match?_alt_left (h : r.match? input = some rest) : (alt r s).match? input = some rest := by
  rw [match?, ways, List.head?_append, ← match?, h]
  rfl

theorem match?_alt_right (h : r.ways input = []) : (alt r s).match? input = s.match? input := by
  rw [match?, ways, h, List.nil_append, match?]

/-- Fuel for every symbol of the input is enough. -/
theorem repeated_eq {ways : List σ → List (List σ)} {fuel : Nat} (h : input.length ≤ fuel) :
    repeated ways fuel input = repeated ways input.length input := by
  induction fuel using Nat.strong_induction_on generalizing input with
  | _ fuel ih =>
    cases fuel with
    | zero => rw [Nat.le_zero.mp h]
    | succ fuel =>
      cases hinput : input.length with
      | zero => simp [repeated, hinput]
      | succ n =>
        simp only [repeated, hinput]
        congr 2
        funext rest
        split
        · rename_i hlt
          rw [ih fuel (Nat.lt_succ_self _) (by omega), ih n (by omega) (by omega)]
        · rfl

/-- One iteration, and then the others. -/
theorem match?_star_step (hr : r.match? input = some mid) (hlt : mid.length < input.length)
    (hs : (star r).match? mid = some rest) : (star r).match? input = some rest := by
  obtain ⟨n, hn⟩ : ∃ n, input.length = n + 1 := ⟨input.length - 1, by omega⟩
  rw [match?, ways, hn, repeated, List.head?_append]
  rw [head?_flatMap (a := mid) hr (b := rest)]
  · rfl
  · rw [if_pos hlt, repeated_eq (by omega)]
    exact hs

/-- A repetition can always stop. -/
theorem ways_star_ne_nil : (star r).ways input ≠ [] := by
  rw [ways]
  cases input.length with
  | zero => exact List.cons_ne_nil _ _
  | succ n => exact List.append_ne_nil_of_right_ne_nil _ (List.cons_ne_nil _ _)

theorem isSome_match?_plus (h : p c = true) : ((plus (one p)).match? (c :: rest)).isSome := by
  have hways : (plus (one p)).ways (c :: rest) = (star (one p)).ways rest := by
    simp [plus, ways, h]
  rw [match?, hways, List.isSome_head?]
  exact ways_star_ne_nil

theorem match?_star_stop (hr : r.ways input = []) : (star r).match? input = some input := by
  rw [match?, ways]
  cases input.length with
  | zero => rfl
  | succ n => rw [repeated, hr, List.flatMap_nil, List.nil_append, List.head?_cons]

/-- A repetition of one symbol takes all it can. -/
theorem match?_star_one {text : List σ} (h : ∀ c ∈ text, p c = true)
    (hrest : ∀ next ∈ rest.head?, p next = false) :
    (star (one p)).match? (text ++ rest) = some rest := by
  induction text with
  | nil =>
    apply match?_star_stop
    cases rest with
    | nil => rfl
    | cons c rest => exact ways_one_of_not (hrest c rfl)
  | cons c text ih =>
    rw [List.forall_mem_cons] at h
    exact match?_star_step (match?_one h.1) (Nat.lt_succ_self _) (ih h.2)

theorem match?_plus_one {text : List σ} (hne : text ≠ []) (h : ∀ c ∈ text, p c = true)
    (hrest : ∀ next ∈ rest.head?, p next = false) :
    (plus (one p)).match? (text ++ rest) = some rest := by
  cases text with
  | nil => exact absurd rfl hne
  | cons c text =>
    rw [List.forall_mem_cons] at h
    exact match?_seq (match?_one h.1) (match?_star_one h.2 hrest)

theorem match?_eq_none (h : r.ways input = []) : r.match? input = none := by
  rw [match?, h]
  rfl

end

end Regex

end Minirel

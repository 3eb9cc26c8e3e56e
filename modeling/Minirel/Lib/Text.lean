-- SUMMARY: Texts in lines and in pieces between separators, and the blanks at their ends.
import Mathlib.Data.List.DropRight
import Mathlib.Data.List.TakeWhile

/-!
# Lines and pieces

A text is read line by line and cut at a separator. Stripping takes the blanks off both ends.
Where a line with a separator in it loses the blanks at its end, each piece that starts behind a
separator and goes on on another line loses its first line break.
-/

namespace Minirel

variable {α : Type}

/-! ## Blanks -/

section
variable (blank : α → Bool)

def strip (l : List α) : List α := (l.rdropWhile blank).dropWhile blank

/-- The first symbol that is no blank. -/
def firstVisible (l : List α) : Option α := l.find? fun c => !blank c

end

section
variable {blank : α → Bool} {l l' ws x y z : List α} {c : α}

theorem firstVisible_append : firstVisible blank (l ++ l') = (firstVisible blank l).or (firstVisible blank l') :=
  List.find?_append

theorem firstVisible_eq_none : firstVisible blank l = none ↔ ∀ c ∈ l, blank c := by
  simp [firstVisible]

theorem firstVisible_of_blanks (h : ∀ c ∈ ws, blank c) : firstVisible blank ws = none := firstVisible_eq_none.mpr h

theorem rdropWhile_of_blanks (h : ∀ c ∈ ws, blank c) : (l ++ ws).rdropWhile blank = l.rdropWhile blank := by
  rw [List.rdropWhile, List.reverse_append, List.dropWhile_append_of_pos (by simpa using h), List.rdropWhile]

/-- Where something is visible at the end, the blanks before it stay. -/
theorem rdropWhile_append (h : firstVisible blank z ≠ none) :
    (l ++ z).rdropWhile blank = l ++ z.rdropWhile blank := by
  have hne : z.reverse.dropWhile blank ≠ [] := by
    rw [Ne, List.dropWhile_eq_nil_iff]
    simpa [firstVisible_eq_none] using h
  rw [List.rdropWhile, List.reverse_append, List.dropWhile_append, if_neg (by simpa using hne),
    List.reverse_append, List.reverse_reverse, List.rdropWhile]

theorem dropWhile_append_firstVisible (h : firstVisible blank x ≠ none) :
    (x ++ l).dropWhile blank = x.dropWhile blank ++ l := by
  have hne : x.dropWhile blank ≠ [] := by
    rw [Ne, List.dropWhile_eq_nil_iff]
    simpa [firstVisible_eq_none] using h
  rw [List.dropWhile_append, if_neg (by simpa using hne)]

/-- A text ends with what its stripping takes off there. -/
theorem exists_rdropWhile (blank : α → Bool) (l : List α) :
    ∃ ws, (∀ c ∈ ws, blank c) ∧ l = l.rdropWhile blank ++ ws :=
  ⟨l.rtakeWhile blank, fun _ hc => List.mem_rtakeWhile_imp hc, (List.rdropWhile_append_rtakeWhile ..).symm⟩

theorem exists_dropWhile (blank : α → Bool) (l : List α) :
    ∃ ws, (∀ c ∈ ws, blank c) ∧ l = ws ++ l.dropWhile blank :=
  ⟨l.takeWhile blank, fun _ hc => List.mem_takeWhile_imp hc, List.takeWhile_append_dropWhile.symm⟩

theorem firstVisible_rdropWhile : firstVisible blank (l.rdropWhile blank) = firstVisible blank l := by
  obtain ⟨ws, hws, heq⟩ := exists_rdropWhile blank l
  conv_rhs => rw [heq, firstVisible_append, firstVisible_of_blanks hws, Option.or_none]

theorem firstVisible_strip : firstVisible blank (strip blank l) = firstVisible blank l := by
  obtain ⟨ws, hws, heq⟩ := exists_dropWhile blank (l.rdropWhile blank)
  have hvisible := congrArg (firstVisible blank) heq
  rw [firstVisible_append, firstVisible_of_blanks hws, Option.none_or, firstVisible_rdropWhile] at hvisible
  exact hvisible.symm

theorem strip_eq_nil : strip blank l = [] ↔ firstVisible blank l = none := by
  rw [← firstVisible_strip]
  constructor
  · intro h
    rw [h]
    rfl
  · intro h
    have hblanks : (strip blank l).dropWhile blank = [] := List.dropWhile_eq_nil_iff.mpr
      (firstVisible_eq_none.mp h)
    rwa [strip, List.dropWhile_idempotent] at hblanks

theorem strip_append_blanks (h : ∀ c ∈ ws, blank c) : strip blank (l ++ ws) = strip blank l := by
  rw [strip, rdropWhile_of_blanks h, strip]

theorem strip_blanks_append (h : ∀ c ∈ ws, blank c) : strip blank (ws ++ l) = strip blank l := by
  by_cases hl : firstVisible blank l = none
  · rw [strip_eq_nil.mpr hl, strip_eq_nil, firstVisible_append, firstVisible_of_blanks h, hl]
    rfl
  · rw [strip, rdropWhile_append hl, List.dropWhile_append_of_pos h, strip]

theorem strip_append (hx : firstVisible blank x ≠ none) (hz : firstVisible blank z ≠ none) :
    strip blank (x ++ (y ++ z)) = x.dropWhile blank ++ (y ++ z.rdropWhile blank) := by
  rw [strip, ← List.append_assoc, rdropWhile_append hz, List.append_assoc, dropWhile_append_firstVisible hx]

theorem mem_strip (hc : c ∈ l) (hblank : blank c = false) : c ∈ strip blank l := by
  obtain ⟨ws, hws, heq⟩ := exists_rdropWhile blank l
  obtain ⟨ws', hws', heq'⟩ := exists_dropWhile blank (l.rdropWhile blank)
  rw [heq, heq', List.mem_append, List.mem_append] at hc
  have hnot : ∀ {w : List α}, (∀ c ∈ w, blank c) → c ∉ w := fun hw hc => by
    rw [hw c hc] at hblank
    cases hblank
  rcases hc with (hc | hc) | hc
  · exact absurd hc (hnot hws')
  · exact hc
  · exact absurd hc (hnot hws)

theorem mem_of_mem_strip (h : c ∈ strip blank l) : c ∈ l :=
  (List.rdropWhile_prefix blank _).subset ((List.dropWhile_suffix _).subset h)

theorem firstVisible_break (hc : blank c = true) :
    firstVisible blank (x ++ c :: l) = firstVisible blank (x ++ l) := by
  have hone : firstVisible blank [c] = none := firstVisible_of_blanks (by simpa using hc)
  rw [List.append_cons, firstVisible_append, firstVisible_append, hone, Option.or_none,
    firstVisible_append]

/-- The blanks are taken off only behind the last symbol that is none. -/
theorem rdropWhile_cons (hc : blank c = false) :
    (x ++ c :: z).rdropWhile blank = x ++ c :: z.rdropWhile blank := by
  rw [List.append_cons x c z, List.append_cons x c (z.rdropWhile blank)]
  by_cases hz : firstVisible blank z = none
  · have hblanks := firstVisible_eq_none.mp hz
    rw [rdropWhile_of_blanks hblanks, List.rdropWhile_concat_neg _ _ _ (by simp [hc]),
      List.rdropWhile_eq_nil_iff.mpr hblanks, List.append_nil]
  · exact rdropWhile_append hz

end

/-! ## Pieces -/

section
variable [DecidableEq α] {sep : α} {l l' p : List α} {ps : List (List α)}

theorem not_mem_of_mem_splitOn (h : p ∈ l.splitOn sep) : sep ∉ p := by
  induction hn : l.length using Nat.strong_induction_on generalizing l with
  | _ n ih =>
    by_cases hmem : sep ∈ l
    · obtain ⟨x, y, rfl, hx⟩ := List.eq_append_cons_of_mem hmem
      rw [List.splitOn_append_cons_self_of_not_mem hx] at h
      rcases List.mem_cons.mp h with rfl | h
      · exact hx
      · rw [List.length_append, List.length_cons] at hn
        exact ih y.length (by omega) h rfl
    · rw [List.splitOn_eq_singleton hmem, List.mem_singleton] at h
      exact h ▸ hmem

/-- Before more than one piece there is a separator. -/
theorem of_splitOn_cons {q : List α} (h : l.splitOn sep = p :: q :: ps) :
    ∃ rest, l = p ++ sep :: rest ∧ rest.splitOn sep = q :: ps := by
  by_cases hmem : sep ∈ l
  · obtain ⟨x, y, rfl, hx⟩ := List.eq_append_cons_of_mem hmem
    rw [List.splitOn_append_cons_self_of_not_mem hx, List.cons.injEq] at h
    exact ⟨y, by rw [h.1], h.2⟩
  · rw [List.splitOn_eq_singleton hmem] at h
    cases h

theorem eq_of_splitOn (h : l.splitOn sep = [p]) : l = p := by
  have hl : [sep].intercalate (l.splitOn sep) = l := List.intercalate_splitOn sep
  rw [h] at hl
  rw [← hl]
  simp

/-- What is added goes into the last piece. -/
theorem splitOn_append (h : l.splitOn sep = ps ++ [p]) :
    (l ++ l').splitOn sep = ps ++ (p ++ l').splitOn sep := by
  induction ps generalizing l with
  | nil =>
    rw [eq_of_splitOn h]
    rfl
  | cons q ps ih =>
    obtain ⟨r, rs, hrs⟩ : ∃ r rs, ps ++ [p] = r :: rs := List.exists_cons_of_ne_nil (by simp)
    obtain ⟨rest, rfl, hrest⟩ := of_splitOn_cons (h.trans (by rw [List.cons_append, hrs]))
    have hq : sep ∉ q := not_mem_of_mem_splitOn (by rw [h]; exact List.mem_cons_self)
    rw [List.append_assoc, List.cons_append, List.splitOn_append_cons_self_of_not_mem hq,
      ih (hrest.trans hrs.symm), List.cons_append]

/-- What stands in front goes into the first. -/
theorem splitOn_front (h : sep ∉ l) : (l ++ l').splitOn sep = (l'.splitOn sep).modifyHead (l ++ ·) := by
  by_cases hmem : sep ∈ l'
  · obtain ⟨x, y, rfl, hx⟩ := List.eq_append_cons_of_mem hmem
    have hlx : sep ∉ l ++ x := by simp [h, hx]
    rw [← List.append_assoc, List.splitOn_append_cons_self_of_not_mem hlx,
      List.splitOn_append_cons_self_of_not_mem hx]
    rfl
  · have hll : sep ∉ l ++ l' := by simp [h, hmem]
    rw [List.splitOn_eq_singleton hll, List.splitOn_eq_singleton hmem]
    rfl

theorem length_splitOn (sep : α) (l : List α) : (l.splitOn sep).length = l.count sep + 1 := by
  induction hn : l.length using Nat.strong_induction_on generalizing l with
  | _ n ih =>
    by_cases hmem : sep ∈ l
    · obtain ⟨x, y, rfl, hx⟩ := List.eq_append_cons_of_mem hmem
      rw [List.length_append, List.length_cons] at hn
      rw [List.splitOn_append_cons_self_of_not_mem hx, List.length_cons, ih y.length (by omega) y rfl,
        List.count_append, List.count_cons_self, List.count_eq_zero.mpr hx]
      omega
    · rw [List.splitOn_eq_singleton hmem, List.count_eq_zero.mpr hmem]
      rfl

end

/-! ## Lines -/

section
variable [DecidableEq α] (blank : α → Bool) (brk sep : α)

/-- The lines of a text, each with the break at its end. -/
def lines : List α → List (List α)
  | [] => []
  | c :: text =>
    if c = brk then [c] :: lines text
    else
      match lines text with
      | [] => [[c]]
      | line :: rest => (c :: line) :: rest

/-- A line with a separator in it, without the blanks at its end. -/
def trimLine (line : List α) : List α := if sep ∈ line then line.rdropWhile blank else line

/-- All lines of a text. -/
def trimLines (text : List α) : List α := ((lines brk text).map (trimLine blank sep)).flatten

/-- The same of a text that starts within such a line. -/
def trimRest (text : List α) : List α :=
  (text.takeWhile (· ≠ brk)).rdropWhile blank ++
    trimLines blank brk sep ((text.dropWhile (· ≠ brk)).drop 1)

/-- Without the first break and the blanks before it. -/
def splice (l : List α) : List α :=
  if brk ∈ l then (l.takeWhile (· ≠ brk)).rdropWhile blank ++ (l.dropWhile (· ≠ brk)).drop 1 else l

/-- There is something to see on the first line and on a later one. -/
def Broken (l : List α) : Prop :=
  (firstVisible blank (l.takeWhile (· ≠ brk))).isSome ∧
    (firstVisible blank (l.dropWhile (· ≠ brk))).isSome

instance (l : List α) : Decidable (Broken blank brk l) := inferInstanceAs (Decidable (_ ∧ _))

end

section
variable [DecidableEq α] {blank : α → Bool} {brk sep : α} {l text : List α}

theorem takeWhile_break (h : brk ∉ l) : (l ++ brk :: text).takeWhile (· ≠ brk) = l := by
  rw [List.takeWhile_append_of_pos (by simpa using fun c hc => ne_of_mem_of_not_mem hc h)]
  simp

theorem dropWhile_break (h : brk ∉ l) : (l ++ brk :: text).dropWhile (· ≠ brk) = brk :: text := by
  rw [List.dropWhile_append_of_pos (by simpa using fun c hc => ne_of_mem_of_not_mem hc h)]
  simp

theorem takeWhile_last (h : brk ∉ l) : l.takeWhile (· ≠ brk) = l :=
  List.takeWhile_eq_self_iff.mpr (by simpa using fun c hc => ne_of_mem_of_not_mem hc h)

theorem dropWhile_last (h : brk ∉ l) : l.dropWhile (· ≠ brk) = [] :=
  List.dropWhile_eq_nil_iff.mpr (by simpa using fun c hc => ne_of_mem_of_not_mem hc h)

theorem lines_break (h : brk ∉ l) : lines brk (l ++ brk :: text) = (l ++ [brk]) :: lines brk text := by
  induction l with
  | nil => simp [lines]
  | cons c l ih =>
    rw [List.mem_cons, not_or] at h
    rw [List.cons_append, lines, if_neg (Ne.symm h.1), ih h.2]
    rfl

theorem lines_last (h : brk ∉ l) (hne : l ≠ []) : lines brk l = [l] := by
  induction l with
  | nil => exact absurd rfl hne
  | cons c l ih =>
    rw [List.mem_cons, not_or] at h
    rw [lines, if_neg (Ne.symm h.1)]
    by_cases hl : l = []
    · subst hl
      rfl
    · rw [ih h.2 hl]

theorem flatten_lines (brk : α) (text : List α) : (lines brk text).flatten = text := by
  induction text with
  | nil => rfl
  | cons c text ih =>
    rw [lines]
    split
    · rw [List.flatten_cons, ih]
      rfl
    · split
      · rename_i hnil
        rw [hnil] at ih
        rw [← ih]
        rfl
      · rename_i line rest hcons
        rw [hcons] at ih
        rw [← ih]
        rfl

theorem splice_break (h : brk ∉ l) : splice blank brk (l ++ brk :: text) = l.rdropWhile blank ++ text := by
  rw [splice, if_pos (by simp), takeWhile_break h, dropWhile_break h, List.drop_one, List.tail_cons]

theorem splice_of_not_mem (h : brk ∉ l) : splice blank brk l = l := if_neg h

theorem mem_of_mem_splice {c : α} (h : c ∈ splice blank brk l) : c ∈ l := by
  by_cases hmem : brk ∈ l
  · obtain ⟨x, y, rfl, hx⟩ := List.eq_append_cons_of_mem hmem
    rw [splice_break hx] at h
    rcases List.mem_append.mp h with h | h
    · exact List.mem_append_left _ ((List.rdropWhile_prefix blank _).subset h)
    · exact List.mem_append_right _ (List.mem_cons_of_mem brk h)
  · rwa [splice_of_not_mem hmem] at h

theorem trimLines_break (h : brk ∉ l) : trimLines blank brk sep (l ++ brk :: text) =
    trimLine blank sep (l ++ [brk]) ++ trimLines blank brk sep text := by
  rw [trimLines, lines_break h, List.map_cons, List.flatten_cons, trimLines]

theorem trimLines_last (h : brk ∉ l) : trimLines blank brk sep l = trimLine blank sep l := by
  by_cases hl : l = []
  · subst hl
    simp [trimLines, trimLine, lines]
  · rw [trimLines, lines_last h hl, List.map_singleton, List.flatten_singleton]

theorem trimRest_break (h : brk ∉ l) : trimRest blank brk sep (l ++ brk :: text) =
    l.rdropWhile blank ++ trimLines blank brk sep text := by
  rw [trimRest, takeWhile_break h, dropWhile_break h, List.drop_one, List.tail_cons]

theorem trimRest_last (h : brk ∉ l) : trimRest blank brk sep l = l.rdropWhile blank := by
  rw [trimRest, takeWhile_last h, dropWhile_last h]
  simp [trimLines, lines]

section
variable (hbrk : blank brk = true) (hsep : blank sep = false)
include hbrk hsep

theorem trimLine_ended {x y : List α} :
    trimLine blank sep (x ++ sep :: (y ++ [brk])) = x ++ sep :: y.rdropWhile blank := by
  rw [trimLine, if_pos (by simp), rdropWhile_cons hsep, List.rdropWhile_concat_pos _ _ _ hbrk]

/-- A piece in front of the first separator stays as it is. -/
theorem trimLines_sep (h : sep ∉ l) :
    trimLines blank brk sep (l ++ sep :: text) = l ++ sep :: trimRest blank brk sep text := by
  have hne : sep ≠ brk := by
    rintro rfl
    cases hbrk.symm.trans hsep
  induction hn : l.length using Nat.strong_induction_on generalizing l with
  | _ n ih =>
    by_cases hmem : brk ∈ l
    · obtain ⟨x, y, rfl, hx⟩ := List.eq_append_cons_of_mem hmem
      rw [List.length_append, List.length_cons] at hn
      simp only [List.mem_append, List.mem_cons, not_or] at h
      have hline : trimLine blank sep (x ++ [brk]) = x ++ [brk] := if_neg (by simp [h.1, hne])
      rw [List.append_assoc, List.cons_append, trimLines_break hx, hline,
        ih y.length (by omega) h.2.2 rfl]
      simp
    · by_cases htext : brk ∈ text
      · obtain ⟨x, y, rfl, hx⟩ := List.eq_append_cons_of_mem htext
        have hfirst : brk ∉ l ++ sep :: x := by simp [hmem, hx, Ne.symm hne]
        have hsplit : l ++ sep :: (x ++ brk :: y) = (l ++ sep :: x) ++ brk :: y := by simp
        have hline := trimLine_ended (x := l) (y := x) hbrk hsep
        rw [hsplit, trimLines_break hfirst, trimRest_break hx, List.append_assoc, List.cons_append,
          hline]
        simp
      · have hall : brk ∉ l ++ sep :: text := by simp [hmem, htext, Ne.symm hne]
        rw [trimLines_last hall, trimRest_last htext, trimLine, if_pos (by simp), rdropWhile_cons hsep]

/-- A piece behind a separator loses its first break. -/
theorem trimRest_sep (h : sep ∉ l) : trimRest blank brk sep (l ++ sep :: text) =
    splice blank brk l ++ sep :: trimRest blank brk sep text := by
  have hne : sep ≠ brk := by
    rintro rfl
    cases hbrk.symm.trans hsep
  by_cases hmem : brk ∈ l
  · obtain ⟨x, y, rfl, hx⟩ := List.eq_append_cons_of_mem hmem
    simp only [List.mem_append, List.mem_cons, not_or] at h
    rw [List.append_assoc, List.cons_append, trimRest_break hx, splice_break hx,
      trimLines_sep hbrk hsep h.2.2, List.append_assoc]
  · rw [splice_of_not_mem hmem]
    by_cases htext : brk ∈ text
    · obtain ⟨x, y, rfl, hx⟩ := List.eq_append_cons_of_mem htext
      have hfirst : brk ∉ l ++ sep :: x := by simp [hmem, hx, Ne.symm hne]
      have hsplit : l ++ sep :: (x ++ brk :: y) = (l ++ sep :: x) ++ brk :: y := by simp
      rw [hsplit, trimRest_break hfirst, trimRest_break hx, rdropWhile_cons hsep]
      simp
    · have hall : brk ∉ l ++ sep :: text := by simp [hmem, htext, Ne.symm hne]
      rw [trimRest_last hall, trimRest_last htext, rdropWhile_cons hsep]

end

/-! ## What is still to be seen -/

theorem firstVisible_trimLines : firstVisible blank (trimLines blank brk sep text) = firstVisible blank text := by
  have hlines : ∀ ls : List (List α),
      firstVisible blank (ls.map (trimLine blank sep)).flatten = firstVisible blank ls.flatten := by
    intro ls
    induction ls with
    | nil => rfl
    | cons line ls ih =>
      have hline : firstVisible blank (trimLine blank sep line) = firstVisible blank line := by
        rw [trimLine]
        split
        · exact firstVisible_rdropWhile
        · rfl
      rw [List.map_cons, List.flatten_cons, List.flatten_cons, firstVisible_append,
        firstVisible_append, hline, ih]
  rw [trimLines, hlines, flatten_lines]

theorem firstVisible_trimRest (hbrk : blank brk = true) :
    firstVisible blank (trimRest blank brk sep text) = firstVisible blank text := by
  by_cases hmem : brk ∈ text
  · obtain ⟨x, y, rfl, hx⟩ := List.eq_append_cons_of_mem hmem
    rw [trimRest_break hx, firstVisible_break hbrk, firstVisible_append, firstVisible_append,
      firstVisible_rdropWhile, firstVisible_trimLines]
  · rw [trimRest_last hmem, firstVisible_rdropWhile]

theorem firstVisible_splice (hbrk : blank brk = true) :
    firstVisible blank (splice blank brk l) = firstVisible blank l := by
  by_cases hmem : brk ∈ l
  · obtain ⟨x, y, rfl, hx⟩ := List.eq_append_cons_of_mem hmem
    rw [splice_break hx, firstVisible_break hbrk, firstVisible_append, firstVisible_append,
      firstVisible_rdropWhile]
  · rw [splice_of_not_mem hmem]

/-- Splicing changes what is left after stripping only where there is something on both sides
    of the break. -/
theorem strip_splice_iff (hbrk : blank brk = true) :
    strip blank (splice blank brk l) = strip blank l ↔ ¬Broken blank brk l := by
  by_cases hmem : brk ∈ l
  case neg =>
    rw [splice_of_not_mem hmem, Broken, dropWhile_last hmem]
    simp [firstVisible]
  obtain ⟨x, y, rfl, hx⟩ := List.eq_append_cons_of_mem hmem
  rw [splice_break hx, Broken, takeWhile_break hx, dropWhile_break hx]
  have hbreak : firstVisible blank (brk :: y) = firstVisible blank y := firstVisible_break (x := []) hbrk
  rw [hbreak]
  obtain ⟨ws, hws, heq⟩ := exists_rdropWhile blank x
  have hgap : ∀ c ∈ ws ++ [brk], blank c := by
    intro c hc
    rcases List.mem_append.mp hc with hc | hc
    · exact hws c hc
    · exact List.mem_singleton.mp hc ▸ hbrk
  have hwhole : x ++ brk :: y = x.rdropWhile blank ++ ((ws ++ [brk]) ++ y) := by
    conv_lhs => rw [heq]
    simp
  rw [hwhole]
  cases hseen : firstVisible blank x with
  | none =>
    rw [List.rdropWhile_eq_nil_iff.mpr (firstVisible_eq_none.mp hseen), List.nil_append,
      List.nil_append, strip_blanks_append hgap]
    simp
  | some c =>
    cases hrest : firstVisible blank y with
    | none =>
      have hy := firstVisible_eq_none.mp hrest
      rw [strip_append_blanks hy, ← List.append_assoc, strip_append_blanks hy, strip_append_blanks hgap]
      simp
    | some d =>
      have hleft : firstVisible blank (x.rdropWhile blank) ≠ none := by
        rw [firstVisible_rdropWhile, hseen]
        nofun
      have hright : firstVisible blank y ≠ none := by
        rw [hrest]
        nofun
      refine iff_of_false (fun hsame => ?_) (not_not_intro ⟨rfl, rfl⟩)
      have hnone := strip_append (y := []) hleft hright
      rw [List.nil_append, List.nil_append] at hnone
      rw [hnone, strip_append hleft hright] at hsame
      have hlength := congrArg List.length hsame
      simp only [List.length_append, List.length_singleton] at hlength
      omega

/-- A separator on a line is still there. -/
theorem countP_lines_le (hsep : blank sep = false) :
    (lines brk text).countP (sep ∈ ·) ≤ (trimLines blank brk sep text).count sep := by
  have hlines : ∀ ls : List (List α),
      ls.countP (sep ∈ ·) ≤ ((ls.map (trimLine blank sep)).flatten).count sep := by
    intro ls
    induction ls with
    | nil => exact le_rfl
    | cons line ls ih =>
      rw [List.map_cons, List.flatten_cons, List.count_append, List.countP_cons]
      by_cases hmem : sep ∈ line
      · obtain ⟨x, y, rfl, -⟩ := List.eq_append_cons_of_mem hmem
        have hkept : sep ∈ trimLine blank sep (x ++ sep :: y) := by
          rw [trimLine, if_pos hmem, rdropWhile_cons hsep]
          simp
        have hone := List.one_le_count_iff.mpr hkept
        simp only [hmem, decide_true, if_true]
        omega
      · simp only [hmem, decide_false, Bool.false_eq_true, if_false]
        omega
  exact hlines (lines brk text)

end

end Minirel

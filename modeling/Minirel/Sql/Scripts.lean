-- SUMMARY: Scripts: statements that each end with a semicolon outside literals and comments.
import Minirel.Lib.Text
import Minirel.Sql.Termination

/-!
# Scripts

What the lexer makes of a text cuts it into pieces. A script is a text of statements with a
semicolon behind each of them that is a piece of its own, and with nothing behind the last but
blanks and comments.
-/

namespace Minirel

open Regex

/-- A match of the lexer: its group and its text. -/
abbrev Piece := TokenGroup × List Char

def textOf (ps : List Piece) : List Char := (ps.map (·.2)).flatten

/-- The lexer cuts the text of the pieces into these pieces. -/
def Lexed (U : Unicode) : List Piece → Prop
  | [] => True
  | p :: ps => masterMatch U (p.2 ++ textOf ps) = some (p.1, textOf ps) ∧ Lexed U ps

instance decidableLexed (U : Unicode) : (ps : List Piece) → Decidable (Lexed U ps)
  | [] => .isTrue trivial
  | _ :: ps => @instDecidableAnd _ _ _ (decidableLexed U ps)

/-- No token is made of the piece. -/
def silent (p : Piece) : Bool := p.1 == .whitespace || p.1 == .comment

def semicolon : Piece := (.op, [';'])

/-- The pieces of a statement. There are tokens among them, and the first is no dot. -/
structure IsStatement (ps : List Piece) : Prop where
  noSemicolon : semicolon ∉ ps
  starts : ∃ p, ps.find? (!silent ·) = some p ∧ p.2 ≠ ['.']

instance (ps : List Piece) : Decidable (IsStatement ps) :=
  decidable_of_iff (semicolon ∉ ps ∧ ∃ p ∈ ps.find? (!silent ·), p.2 ≠ ['.'])
    ⟨fun h => ⟨h.1, h.2⟩, fun h => ⟨h.1, h.2⟩⟩

/-- The text is a script of these statements, each with what stands before it. -/
def Script (U : Unicode) (text : List Char) (statements : List (List Char)) : Prop :=
  ∃ (stmts : List (List Piece)) (tail : List Piece), Lexed U (stmts.flatMap (· ++ [semicolon]) ++ tail) ∧
    text = textOf (stmts.flatMap (· ++ [semicolon]) ++ tail) ∧ statements = stmts.map textOf ∧
    (∀ ps ∈ stmts, IsStatement ps) ∧ ∀ p ∈ tail, silent p

/-! ## What a piece starts with -/

variable {U : Unicode} {c : Char} {text rest : List Char} {group : TokenGroup}

theorem mem_exactly {w : List Char} (h : w ∈ (TokenGroup.exactly c).language) : w = [c] := by
  obtain ⟨c', hc', rfl⟩ := h
  rw [eq_of_beq hc']

theorem isSpace_of_ascii (hc : c.toNat < 128) (h : ¬(9 ≤ c.toNat ∧ c.toNat ≤ 13 ∨ 28 ≤ c.toNat ∧ c.toNat ≤ 32)) :
    U.isSpace c = false := by
  rw [U.isSpace_ascii c hc]
  exact decide_eq_false h

/-- The text of a piece is a word of its group. -/
theorem mem_of_masterMatch (h : masterMatch U (text ++ rest) = some (group, rest)) :
    text ∈ (group.regex U).language := by
  obtain ⟨g, -, hg⟩ := List.exists_of_findSome?_eq_some h
  obtain ⟨rest', hmatch, heq⟩ := Option.map_eq_some_iff.mp hg
  cases heq
  obtain ⟨text', htext', hsplit⟩ := exists_of_match? hmatch
  rw [List.append_cancel_right hsplit]
  exact htext'

/-- Blanks go to the first group, so no other piece starts with one. -/
theorem not_isSpace_of_masterMatch (h : masterMatch U (c :: text ++ rest) = some (group, rest))
    (hgroup : group ≠ .whitespace) : U.isSpace c = false := by
  by_contra hspace
  rw [Bool.not_eq_false] at hspace
  obtain ⟨left, hleft⟩ := Option.isSome_iff_exists.mp (@isSome_match?_plus _ _ _ (text ++ rest) hspace)
  have hfirst : masterMatch U (c :: text ++ rest) = some (.whitespace, left) := by
    simp [masterMatch, tokenSpec, TokenGroup.regex, hleft]
  rw [hfirst] at h
  cases h
  exact hgroup rfl

theorem starts_of_comment (h : text ∈ (TokenGroup.comment.regex U).language) :
    ∃ more, text = '-' :: more := by
  obtain ⟨first, hfirst, more, -, rfl⟩ := Language.mem_mul.mp h
  rw [mem_exactly hfirst]
  exact ⟨more, rfl⟩

theorem starts_of_seq {p : Char → Bool} {r : Regex Char} (h : c :: text ∈ (Regex.seq (.one p) r).language) :
    p c = true := by
  obtain ⟨first, ⟨c', hc', rfl⟩, more, -, heq⟩ := Language.mem_mul.mp h
  cases heq
  exact hc'

theorem starts_of_digits {r : Regex Char} (h : c :: text ∈ (Regex.seq (TokenGroup.digits U) r).language) :
    U.isDecimal c = true := by
  obtain ⟨first, hfirst, more, -, heq⟩ := Language.mem_mul.mp h
  obtain ⟨hne, hall⟩ := of_mem_plus_one hfirst
  cases first with
  | nil => exact absurd rfl hne
  | cons d first =>
    cases heq
    exact hall _ List.mem_cons_self

/-- A piece that starts with a dot is a dot. -/
theorem eq_dot (h : '.' :: text ∈ (group.regex U).language) :
    group = .op ∧ text = [] := by
  have hdecimal : U.isDecimal '.' = false := by
    rw [U.isDecimal_ascii _ (by decide)]
    decide
  have hspace : U.isSpace '.' = false := isSpace_of_ascii (by decide) (by decide)
  cases group with
  | whitespace =>
    cases hspace.symm.trans ((of_mem_plus_one h).2 _ List.mem_cons_self)
  | comment =>
    cases starts_of_seq h
  | string =>
    cases starts_of_seq h
  | ident =>
    cases starts_of_seq h
  | number =>
    rcases h with hpoint | hdigits
    · cases hdecimal.symm.trans (starts_of_digits hpoint)
    · cases hdecimal.symm.trans ((of_mem_plus_one hdigits).2 _ List.mem_cons_self)
  | op =>
    rcases h with h | h | h | h | h
    · cases starts_of_seq h
    · cases starts_of_seq h
    · cases starts_of_seq h
    · cases starts_of_seq h
    · obtain ⟨c', -, heq⟩ := h
      cases heq
      exact ⟨rfl, rfl⟩

/-! ## What a script starts with -/

variable {ps : List Piece} {p : Piece}

theorem textOf_cons (p : Piece) (ps : List Piece) : textOf (p :: ps) = p.2 ++ textOf ps := rfl

theorem textOf_append (ps ps' : List Piece) : textOf (ps ++ ps') = textOf ps ++ textOf ps' := by
  rw [textOf, List.map_append, List.flatten_append, textOf, textOf]

theorem lexed_right {ps' : List Piece} (h : Lexed U (ps ++ ps')) : Lexed U ps' := by
  induction ps with
  | nil => exact h
  | cons p ps ih => exact ih h.2

/-- A piece is of blanks, or it starts with a symbol to see. -/
theorem firstVisible_piece (h : Lexed U (p :: ps)) :
    p.1 = .whitespace ∧ firstVisible U.isSpace p.2 = none ∨
      p.1 ≠ .whitespace ∧ ∃ c more, p.2 = c :: more ∧ firstVisible U.isSpace p.2 = some c := by
  obtain ⟨group, text⟩ := p
  have hmem := mem_of_masterMatch h.1
  by_cases hgroup : group = .whitespace
  · subst hgroup
    exact .inl ⟨rfl, firstVisible_of_blanks (of_mem_plus_one hmem).2⟩
  · obtain ⟨c, more, rfl⟩ := List.exists_cons_of_ne_nil (ne_nil_of_takesSome group.takesSome hmem)
    refine .inr ⟨hgroup, c, more, rfl, ?_⟩
    simp [firstVisible, not_isSpace_of_masterMatch h.1 hgroup]

/-! ## Statements that parse -/

section
variable {C : Conversions} {upper : String → String}

theorem tokenOf_eq_none {pos : Nat} (h : silent p) : tokenOf upper pos p.2 p.1 = none := by
  obtain ⟨group, text⟩ := p
  cases group with
  | whitespace | comment => rfl
  | number | string | ident | op => cases h

theorem tokenOf_eq_some {pos : Nat} (h : silent p = false) : ∃ t, tokenOf upper pos p.2 p.1 = some t := by
  obtain ⟨group, text⟩ := p
  cases group with
  | whitespace | comment => cases h
  | number | string | op => exact ⟨_, rfl⟩
  | ident =>
    simp only [tokenOf]
    split
    · exact ⟨_, rfl⟩
    · exact ⟨_, rfl⟩

/-- The first token is that of the first piece that makes one. -/
theorem head?_tokenizeFrom {fuel pos : Nat} (h : Lexed U ps) {tokens : List Token}
    (htokens : tokenizeFrom C U upper fuel pos (textOf ps) = .ok tokens) :
    (∃ p, ps.find? (!silent ·) = some p ∧ ∃ pos', tokenOf upper pos' p.2 p.1 = tokens.head?) ∨
      ∃ t, tokens.head? = some t ∧ t.kind = .eof := by
  induction ps generalizing fuel pos tokens with
  | nil =>
    cases fuel <;> cases htokens <;> exact .inr ⟨_, rfl, rfl⟩
  | cons q ps ih =>
    obtain ⟨c, text, hq⟩ := List.exists_cons_of_ne_nil
      (ne_nil_of_takesSome q.1.takesSome (mem_of_masterMatch h.1))
    have htext : textOf (q :: ps) = c :: (text ++ textOf ps) := by rw [textOf_cons, hq, List.cons_append]
    have hmatch : masterMatch U (c :: (text ++ textOf ps)) = some (q.1, textOf ps) := by
      rw [← htext]
      exact h.1
    have htake : (c :: (text ++ textOf ps)).take
        ((c :: (text ++ textOf ps)).length - (textOf ps).length) = q.2 := by
      rw [← htext, textOf_cons, List.length_append, Nat.add_sub_cancel, List.take_left]
    cases fuel with
    | zero =>
      rw [htext] at htokens
      cases htokens
    | succ fuel =>
      rw [htext, tokenizeFrom] at htokens
      simp only [hmatch, htake] at htokens
      obtain ⟨rest, hrest, htokens⟩ := bind_eq_ok.mp htokens
      cases htokens
      cases hsilent : silent q with
      | true =>
        rw [tokenOf_eq_none hsilent, List.find?_cons_of_neg (by simp [hsilent])]
        exact ih h.2 hrest
      | false =>
        obtain ⟨t, ht⟩ := @tokenOf_eq_some q upper pos hsilent
        exact .inl ⟨q, List.find?_cons_of_pos (by simp [hsilent]), pos, by rw [ht]; rfl⟩

/-- A text that the parser accepts is a statement, if it ends before its semicolon. -/
theorem isStatement_of_parse (h : Lexed U ps) (hno : semicolon ∉ ps) {sql : String}
    (hsql : sql.toList = textOf ps) {stmt : AnyStatement} (hparse : parse C U upper sql = .ok stmt) :
    IsStatement ps := by
  refine ⟨hno, ?_⟩
  obtain ⟨tokens, htokens, body, semicolon, eof, hbody, -, -, hwords⟩ := parse_written hparse
  obtain ⟨name, tail, rfl⟩ := hbody.starts
  have hkind : ∀ t, tokens.head? = some t → t.kind = .keyword := by
    intro t ht
    obtain ⟨more, rfl⟩ := List.head?_eq_some_iff.mp ht
    exact congrArg Word.kind (List.cons.inj hwords).1
  rw [tokenize, hsql] at htokens
  rcases head?_tokenizeFrom h htokens with ⟨p, hfirst, pos, hp⟩ | ⟨t, ht, heof⟩
  · refine ⟨p, hfirst, fun hdot => ?_⟩
    obtain ⟨before, after, rfl, -⟩ := List.find?_eq_some_iff_append.mp hfirst |>.2
    have hmem := mem_of_masterMatch (lexed_right h).1
    rw [hdot] at hmem
    rw [(eq_dot hmem).1] at hp
    cases hkind _ hp.symm
  · cases (hkind t ht).symm.trans heof

end

/-! ## What is to be seen of a script -/

/-- What is to be seen first of a statement is no dot. -/
theorem firstVisible_statement {ps' : List Piece} (h : Lexed U (ps ++ ps'))
    (hfirst : ps.find? (!silent ·) = some p) (hdot : p.2 ≠ ['.']) :
    ∃ c, firstVisible U.isSpace (textOf ps) = some c ∧ c ≠ '.' := by
  induction ps with
  | nil => cases hfirst
  | cons q ps ih =>
    rw [textOf_cons, firstVisible_append]
    rcases firstVisible_piece h with ⟨hspace, hnone⟩ | ⟨hgroup, c, more, hq, hsome⟩
    · have hsilent : silent q = true := by simp [silent, hspace]
      rw [List.find?_cons_of_neg (by simp [hsilent])] at hfirst
      rw [hnone, Option.none_or]
      exact ih h.2 hfirst
    · refine ⟨c, by rw [hsome, Option.some_or], ?_⟩
      rintro rfl
      have hmem := mem_of_masterMatch h.1
      rw [hq] at hmem
      obtain ⟨-, rfl⟩ := eq_dot hmem
      by_cases hcomment : q.1 = .comment
      · rw [hcomment] at hmem
        cases starts_of_seq hmem
      · have hloud : silent q = false := by simp [silent, hgroup, hcomment]
        rw [List.find?_cons_of_pos (by simp [hloud])] at hfirst
        exact hdot (Option.some.inj hfirst ▸ hq)

/-- What is to be seen first of blanks and comments is the start of a comment. -/
theorem firstVisible_tail (h : Lexed U ps) (hsilent : ∀ p ∈ ps, silent p) :
    firstVisible U.isSpace (textOf ps) = none ∨ firstVisible U.isSpace (textOf ps) = some '-' := by
  induction ps with
  | nil => exact .inl rfl
  | cons q ps ih =>
    rw [textOf_cons, firstVisible_append]
    rcases firstVisible_piece h with ⟨-, hnone⟩ | ⟨hgroup, c, more, hq, hsome⟩
    · rw [hnone, Option.none_or]
      exact ih h.2 fun p hp => hsilent p (List.mem_cons_of_mem q hp)
    · have hcomment : q.1 = .comment := by simpa [silent, hgroup] using hsilent q List.mem_cons_self
      have hmem := mem_of_masterMatch h.1
      rw [hcomment] at hmem
      obtain ⟨more', hq'⟩ := starts_of_comment hmem
      rw [hq', List.cons.injEq] at hq
      rw [hsome, hq.1]
      exact .inr rfl

/-- What the shell needs to know of a script. -/
theorem Script.shape {statements : List (List Char)} (h : Script U text statements) :
    ∃ tail, text = statements.flatMap (· ++ [';']) ++ tail ∧
      (∀ s ∈ statements, ∃ c, firstVisible U.isSpace s = some c ∧ c ≠ '.') ∧
      (firstVisible U.isSpace tail = none ∨ firstVisible U.isSpace tail = some '-') := by
  obtain ⟨stmts, tail, hlexed, rfl, rfl, hstmts, htail⟩ := h
  refine ⟨textOf tail, ?_, fun s hs => ?_, firstVisible_tail (lexed_right hlexed) htail⟩
  · rw [textOf_append]
    congr 1
    clear hlexed hstmts
    induction stmts with
    | nil => rfl
    | cons ps stmts ih =>
      rw [List.flatMap_cons, textOf_append, ih, textOf_append]
      rfl
  · obtain ⟨ps, hps, rfl⟩ := List.mem_map.mp hs
    obtain ⟨p, hfirst, hdot⟩ := (hstmts ps hps).starts
    obtain ⟨before, after, rfl⟩ := List.append_of_mem hps
    rw [List.flatMap_append, List.flatMap_cons, List.append_assoc, List.append_assoc,
      List.append_assoc] at hlexed
    exact firstVisible_statement (lexed_right hlexed) hfirst hdot

end Minirel

-- SUMMARY: A statement that the parser returns is written by the words it has read.
import Minirel.Sql.Totality

/-!
# Soundness of the parser

Whenever the parser returns, the words it has taken off write what it returns. It lets some
words pass that it does not use; texts with these are left out.
-/

namespace Minirel

open Word

/-! ## Texts that the parser uses in full -/

/-- None of the words that an expression or a CREATE drops: a `UNIQUE` before `TABLE`, a
    truth value behind a sign, a second `*` behind an argument in parentheses. -/
structure Clean (ws : List Word) : Prop where
  unique : ¬ [keyword "UNIQUE", keyword "TABLE"] <:+: ws
  sign : ∀ mid text, (∀ w ∈ mid, w = op "-" ∨ w = op "(") → text = "TRUE" ∨ text = "FALSE" →
    ¬ (op "-" :: mid ++ [keyword text]) <:+: ws
  star : ¬ [op ")", op "*"] <:+: ws

theorem Clean.part {ws ws' : List Word} (h : Clean ws) (hi : ws' <:+: ws) : Clean ws' where
  unique := fun hu => h.unique (hu.trans hi)
  sign := fun mid text hmid ht hs => h.sign mid text hmid ht (hs.trans hi)
  star := fun hs => h.star (hs.trans hi)

theorem Clean.left {ws ws' : List Word} (h : Clean (ws ++ ws')) : Clean ws :=
  h.part (List.prefix_append ws ws').isInfix

theorem Clean.right {ws ws' : List Word} (h : Clean (ws ++ ws')) : Clean ws' :=
  h.part (List.suffix_append ws ws').isInfix

theorem Clean.tail {w : Word} {ws : List Word} (h : Clean (w :: ws)) : Clean ws :=
  h.part (List.suffix_cons w ws).isInfix

/-- A type name behind an identifier is a keyword. -/
def TypesClean (upper : String → String) (ws : List Word) : Prop :=
  ∀ name w, [ident name, w] <:+: ws → (columnType? (upper w.value)).isSome → w.kind = .keyword

theorem TypesClean.part {upper : String → String} {ws ws' : List Word} (h : TypesClean upper ws)
    (hi : ws' <:+: ws) : TypesClean upper ws' :=
  fun name w hw => h name w (hw.trans hi)

/-- The words of a text of which the parser uses every one. -/
def FullyUsed (upper : String → String) (ws : List Word) : Prop :=
  Clean ws ∧ (keyword "TABLE" ∈ ws → TypesClean upper ws)

/-! ## Expressions -/

section
variable {N : Numerals} {upper : String → String}

/-- What writes a truth value starts with it, behind parentheses only. -/
theorem Spelled.bool {prec : Precedence} {e : Expr} {ws : List Word} (h : Spelled N upper prec e ws)
    {b : Bool} (he : e = .literal (.bool b)) (hN : ∀ text, ¬ N.literal text (.bool b)) :
    ∃ mid text post, ws = mid ++ keyword text :: post ∧ (∀ w ∈ mid, w = op "-" ∨ w = op "(") ∧
      (text = "TRUE" ∨ text = "FALSE") := by
  induction h with
  | number h =>
    cases he
    exact absurd h (hN _)
  | true => exact ⟨[], "TRUE", [], rfl, by simp, .inl rfl⟩
  | false => exact ⟨[], "FALSE", [], rfl, by simp, .inr rfl⟩
  | negative h hbool hneg ih =>
    rename_i value value' ws
    cases he
    cases value <;> simp [Expr.negated?] at hneg
  | parens h ih =>
    obtain ⟨mid, text, post, rfl, hmid, ht⟩ := ih he
    refine ⟨op "(" :: mid, text, post ++ [op ")"], by simp, ?_, ht⟩
    simpa using hmid
  | lift h hle ih => exact ih he
  | string | null | star | functionCall | column | qualified | comparison | not | and | or => cases he

/-- What writes a `*` is it, or ends with a parenthesis. -/
theorem Spelled.starred {prec : Precedence} {e : Expr} {ws : List Word}
    (h : Spelled N upper prec e ws) (he : e = .star) :
    ws = [op "*"] ∨ ∃ inner, ws = inner ++ [op ")"] := by
  induction h with
  | star => exact .inl rfl
  | parens h ih => exact .inr ⟨_, rfl⟩
  | lift h hle ih => exact ih he
  | number | string | true | false | null | negative | functionCall | column | qualified | comparison
  | not | and | or => cases he

end

section
variable {C : Conversions} {upper : String → String} {ws : List Word}

/-- A numeral is a number. -/
theorem read_bool {text : String} {b : Bool} : ¬ (Numerals.read C).literal text (.bool b) := by
  intro h
  change numberValue C text = _ at h
  unfold numberValue at h
  split at h
  · cases hx : C.floatOfStr text with
    | error e => simp [hx] at h
    | ok x => simp [hx] at h
  · cases hx : C.intOfStr text with
    | error e => simp [hx] at h
    | ok i => simp [hx] at h

theorem Written.spelled {prec : Precedence} {e : Expr} (h : Written C upper prec e ws)
    (hclean : Clean ws) : Spelled (Numerals.read C) upper prec e ws := by
  induction h with
  | number h => exact .number h
  | string s => exact .string s
  | true => exact .true
  | false => exact .false
  | null => exact .null
  | star => exact .star
  | column name => exact .column name
  | qualified table name => exact .qualified table name
  | negative h hneg ih =>
    rename_i operand value ws
    have hspelled := ih hclean.tail
    cases operand with
    | literal v =>
      refine .negative hspelled ?_ hneg
      cases v with
      | bool b =>
        -- the sign would be dropped
        obtain ⟨mid, text, post, rfl, hmid, ht⟩ := hspelled.bool rfl fun _ => read_bool
        exact absurd ⟨[], post, by simp⟩ (hclean.sign mid text hmid ht)
      | none | int _ | float _ | str _ => rfl
    | columnRef _ _ | star | unaryOp _ _ | binaryOp _ _ _ | functionCall _ _ => cases hneg
  | parens h ih => exact .parens (ih hclean.tail.left)
  | call h hstar ih => exact .functionCall (ih hclean.tail.tail.left)
  | callStarred h hstar ih =>
    -- the second `*` would be dropped
    rename_i name ws
    exfalso
    rcases (ih hclean.tail.tail.left).starred rfl with hone | ⟨inner, rfl⟩
    · rw [hone] at hstar
      exact hstar rfl
    · exact hclean.star ⟨ident name :: op "(" :: inner, [op ")"], by simp⟩
  | comparison hcmp h₁ h₂ ih₁ ih₂ => exact .comparison hcmp (ih₁ hclean.left) (ih₂ hclean.right.tail)
  | not h ih => exact .not (ih hclean.tail)
  | and h₁ h₂ ih₁ ih₂ => exact .and (ih₁ hclean.left) (ih₂ hclean.right.tail)
  | or h₁ h₂ ih₁ ih₂ => exact .or (ih₁ hclean.left) (ih₂ hclean.right.tail)
  | lift h hle ih => exact .lift (ih hclean) hle

/-! ## Parts of statements -/

/-- What holds of every part of the words carries over to every item. -/
theorem CommaSpelled.of_part {α : Type} {W W' : α → List Word → Prop} {P : List Word → Prop}
    (hP : ∀ ws ws', ws' <:+: ws → P ws → P ws') (hW : ∀ a ws, P ws → W a ws → W' a ws)
    {items : List α} {ws : List Word} (h : CommaSpelled W items ws) (hws : P ws) :
    CommaSpelled W' items ws := by
  induction h with
  | single h => exact .single (hW _ _ hws h)
  | snoc h ha ih =>
    rename_i items a ws ws'
    refine .snoc (ih (hP _ _ (List.prefix_append ..).isInfix hws)) (hW _ _ (hP _ _ ?_ hws) ha)
    exact ((List.suffix_cons ..).trans (List.suffix_append ..)).isInfix

theorem CommaSpelled.of_clean {α : Type} {W W' : α → List Word → Prop} {items : List α}
    (h : CommaSpelled W items ws) (hclean : Clean ws) (hW : ∀ a ws, Clean ws → W a ws → W' a ws) :
    CommaSpelled W' items ws :=
  h.of_part (fun _ _ hi hws => hws.part hi) hW hclean

theorem ClauseSpelled.of_clean {α : Type} {keywords : List Word} {absent a : α}
    {W W' : α → List Word → Prop} (h : ClauseSpelled keywords absent W a ws) (hclean : Clean ws)
    (hW : ∀ inner, Clean inner → W a inner → W' a inner) :
    ClauseSpelled keywords absent W' a ws := by
  refine h.imp_right fun ⟨inner, ha, hws⟩ => ?_
  subst hws
  exact ⟨inner, hW inner hclean.right ha, rfl⟩

theorem WhereWritten.spelled {where_ : Option Expr} (h : WhereWritten C upper where_ ws)
    (hclean : Clean ws) : WhereSpelled (Numerals.read C) upper where_ ws :=
  h.of_clean hclean fun _ hclean ⟨e, he, hwritten⟩ => ⟨e, he, hwritten.spelled hclean⟩

theorem JoinWritten.spelled {join : Option JoinClause} (h : JoinWritten C upper join ws)
    (hclean : Clean ws) : JoinSpelled (Numerals.read C) upper join ws := by
  refine h.of_clean hclean fun inner hclean ⟨j, ws₁, ws₂, hj, halias, hon, hinner⟩ => ?_
  subst hinner
  exact ⟨j, ws₁, ws₂, hj, halias, hon.spelled hclean.right.tail, rfl⟩

theorem ItemWritten.spelled {item : SelectItem} (h : ItemWritten C upper item ws)
    (hclean : Clean ws) : ItemSpelled (Numerals.read C) upper item ws := by
  obtain ⟨inner, hwritten, rfl⟩ := h
  exact ⟨inner, hwritten.spelled hclean.left, rfl⟩

theorem ItemsWritten.spelled {items : List SelectItem} (h : ItemsWritten C upper items ws)
    (hclean : Clean ws) : CommaSpelled (ItemSpelled (Numerals.read C) upper) items ws := by
  rcases h with ⟨rfl, rfl⟩ | ⟨hitems, -⟩
  · exact .single ⟨_, .lift .star (by decide), rfl⟩
  · exact hitems.of_clean hclean fun _ _ hclean hitem => hitem.spelled hclean

theorem OrderItemWritten.spelled {item : OrderByItem} (h : OrderItemWritten C upper item ws)
    (hclean : Clean ws) : OrderItemSpelled (Numerals.read C) upper item ws := by
  obtain ⟨inner, direction, hwritten, rfl, hdirection⟩ := h
  exact ⟨inner, direction, hwritten.spelled hclean.left, rfl, hdirection⟩

theorem OrderByWritten.spelled {orderBy : List OrderByItem} (h : OrderByWritten C upper orderBy ws)
    (hclean : Clean ws) : OrderBySpelled (Numerals.read C) upper orderBy ws :=
  h.of_clean hclean fun _ hclean hitems =>
    hitems.of_clean hclean fun _ _ hclean hitem => hitem.spelled hclean

theorem RowSpelled.of_clean {α : Type} {W W' : α → List Word → Prop} {items : List α}
    (h : RowSpelled W items ws) (hclean : Clean ws) (hW : ∀ a ws, Clean ws → W a ws → W' a ws) :
    RowSpelled W' items ws := by
  obtain ⟨inner, hitems, rfl⟩ := h
  exact ⟨inner, hitems.of_clean hclean.tail.left hW, rfl⟩

theorem AssignmentWritten.spelled {a : String × Expr} (h : AssignmentWritten C upper a ws)
    (hclean : Clean ws) : AssignmentSpelled (Numerals.read C) upper a ws := by
  obtain ⟨inner, hwritten, rfl⟩ := h
  exact ⟨inner, hwritten.spelled hclean.tail.tail, rfl⟩

theorem ColumnWritten.spelled {col : Column} (h : ColumnWritten upper col ws)
    (htypes : TypesClean upper ws) : ColumnSpelled upper col ws := by
  obtain ⟨⟨kind, value⟩, htype, rfl⟩ := h
  obtain rfl : kind = .keyword :=
    htypes col.name ⟨kind, value⟩ (List.infix_refl _) (by rw [htype]; rfl)
  exact ⟨value, htype, rfl⟩

/-! ## Statements -/

theorem StatementWritten.spelled {stmt : AnyStatement} (h : StatementWritten C upper stmt ws)
    (hused : FullyUsed upper ws) : StatementSpelled (Numerals.read C) upper stmt ws := by
  obtain ⟨hclean, htypes⟩ := hused
  cases h with
  | createTable unique hcolumns =>
    rename_i table columns ws
    cases unique with
    | true => exact absurd ⟨[keyword "CREATE"], ident table :: ws, rfl⟩ hclean.unique
    | false =>
      obtain ⟨inner, hcolumns, rfl⟩ := hcolumns
      have hinner : inner <:+: keyword "CREATE" :: keyword "TABLE" :: ident table :: op "(" ::
          inner ++ [op ")"] := ⟨[keyword "CREATE", keyword "TABLE", ident table, op "("], [op ")"], rfl⟩
      refine .createTable ⟨inner, ?_, rfl⟩
      exact hcolumns.of_part (fun _ _ hi hws => hws.part hi) (fun _ _ htypes hcol => hcol.spelled htypes)
        ((htypes (by simp)).part hinner)
  | createIndex indexName table column unique => exact .createIndex indexName table column unique
  | insert hcolumns hrows =>
    exact .insert hcolumns (hrows.of_clean hclean.tail.tail.tail.right.tail
      fun _ _ hclean hrow => hrow.of_clean hclean fun _ _ hclean he => he.spelled hclean)
  | update hassignments hwhere =>
    have hrest := hclean.tail.tail.tail
    exact .update (hassignments.of_clean hrest.left fun _ _ hclean ha => ha.spelled hclean)
      (hwhere.spelled hrest.right)
  | delete hwhere => exact .delete (hwhere.spelled hclean.tail.tail.tail)
  | select hhead hlimit =>
    obtain ⟨ws₁, ws₂, ws₃, ws₄, ws₅, ws₆, hitems, halias, hjoin, hwhere, hgroup, horder, rfl⟩ := hhead
    have hhead := hclean.left
    exact .select (hitems.spelled hhead.left.left.left.left.left.tail) halias
      (hjoin.spelled hhead.left.left.left.right) (hwhere.spelled hhead.left.left.right) hgroup
      (horder.spelled hhead.right) hlimit

end

/-! ## The whole text -/

/-- Whenever the parser accepts a text of which it uses every word, the words write what it
    returns. -/
theorem parseStatement_spelled {C : Conversions} {upper : String → String} {tokens : List Token}
    {stmt : AnyStatement} (hend : EndsOnce tokens)
    (hused : FullyUsed upper (tokens.map Token.toWord))
    (h : parseStatement C upper tokens = .ok stmt) :
    TextSpelled (Numerals.read C) upper stmt (tokens.map Token.toWord) := by
  obtain ⟨body, semicolon, eof, hstmt, hsemicolon, heof, heq⟩ := parseStatement_written hend h
  rw [heq] at hused ⊢
  have hbody : body <:+: body ++ semicolon ++ [eof] := ⟨[], semicolon ++ [eof], by simp⟩
  have hbody' : FullyUsed upper body :=
    ⟨hused.1.part hbody, fun htable => (hused.2 (hbody.subset htable)).part hbody⟩
  exact ⟨body, semicolon, eof, hstmt.spelled hbody', hsemicolon, heof, rfl⟩

/-- `SELECT * FROM t LIMIT 007`. -/
def limitText : List Token :=
  [keyword "SELECT", op "*", keyword "FROM", ident "t", keyword "LIMIT", number "007",
    ⟨.eof, ""⟩].map fun w => ⟨w, 0⟩

def limitStatement : AnyStatement :=
  .select { items := [{ expr := .star }], table := "t", limit := some 7 }

theorem parseStatement_spelled_limit :
    TextSpelled (Numerals.read decimal) String.toUpper limitStatement
      (limitText.map Token.toWord) := by
  refine parseStatement_spelled (C := decimal) ⟨limitText.dropLast, ⟨⟨.eof, ""⟩, 0⟩, rfl, by decide⟩
    ⟨⟨by decide, fun mid text _ _ hs => ?_, by decide⟩, fun htable => ?_⟩ rfl
  · exact absurd (hs.subset (List.mem_cons_self ..)) (by decide)
  · exact absurd htable (by decide)

/-- The number of a LIMIT need not be written with its decimal digits. -/
theorem not_canonical :
    EndsOnce limitText ∧ parseStatement decimal String.toUpper limitText = .ok limitStatement ∧
      ¬ TextSpelled (Numerals.canonical decimal) String.toUpper limitStatement
        (limitText.map Token.toWord) := by
  refine ⟨⟨limitText.dropLast, ⟨⟨.eof, ""⟩, 0⟩, rfl, by decide⟩, rfl, ?_⟩
  rintro ⟨body, semicolon, eof, hstmt, hsemicolon, -, heq⟩
  cases hstmt with
  | select hitems halias hjoin hwhere hgroup horder hlimit =>
    obtain ⟨hnone, -⟩ | ⟨_, ⟨n, text, hn, htext, rfl⟩, rfl⟩ := hlimit
    · cases hnone
    · cases hn
      have hlast := congrArg (fun ws => ws.reverse[1]?) heq
      obtain rfl | rfl := hsemicolon
      · simp [limitText] at hlast
        rw [htext] at hlast
        exact absurd hlast (by decide)
      · simp [limitText] at hlast

end Minirel

-- SUMMARY: The shell: which statements of a script it passes to the database.
import Minirel.Sql.Scripts

/-!
# The shell

`repl.py`. A line with a semicolon makes the shell cut what it has buffered at the first one,
pass what stands before it to the database and keep the rest. So it passes one statement for
each such line, and the rest waits for another.
-/

namespace Minirel

namespace Repl

/-! ## The loop -/

/-- What the shell uses of the database: `run_statement`, the text of an exception, and the names
    of the tables in order. -/
structure Client (σ : Type) where
  runStatement : String → EStateM PyError σ String
  message : PyError → String
  tables : σ → List String

/-- The database, the statements that have been passed to it, and what has been written. -/
structure Shell (σ : Type) where
  db : σ
  passed : List String
  output : List String

variable {σ : Type}

def Shell.write (text : String) (shell : Shell σ) : Shell σ :=
  { shell with output := shell.output ++ [text] }

/-- Run a statement and write what comes of it. -/
def Shell.pass (client : Client σ) (statement : String) (shell : Shell σ) : Shell σ :=
  match client.runStatement statement shell.db with
  | .ok result db => ⟨db, shell.passed ++ [statement], shell.output ++ [result ++ "\n"]⟩
  | .error e db =>
    ⟨db, shell.passed ++ [statement], shell.output ++ [s!"error: {client.message e}\n"]⟩

def exitCommands : List (List Char) := [".exit".toList, ".quit".toList]
def tablesCommand : List Char := ".tables".toList
def helpCommand : List Char := ".help".toList

/-- `buffer.partition(";")`, without the semicolon. -/
def cut (buffer : List Char) : List Char × List Char :=
  (buffer.takeWhile (· ≠ ';'), (buffer.dropWhile (· ≠ ';')).drop 1)

section
variable (client : Client σ) (U : Unicode)

/-- The loop of `repl` over the lines of its input. -/
def loop : List (List Char) → List Char → Shell σ → Shell σ
  | [], buffer, shell => shell.write (if buffer = [] then "minirel> " else "     ...> ")
  | line :: rest, buffer, shell =>
    let shell := shell.write (if buffer = [] then "minirel> " else "     ...> ")
    let stripped := strip U.isSpace line
    if buffer = [] ∧ stripped ∈ exitCommands then shell
    else if buffer = [] ∧ stripped = tablesCommand then
      loop rest buffer (shell.write ("\n".intercalate (client.tables shell.db) ++ "\n"))
    else if buffer = [] ∧ stripped = helpCommand then
      loop rest buffer (shell.write "Enter SQL ending in ';'. Dot-commands: .tables, .exit\n")
    else if ';' ∈ line then
      let (statement, remainder) := cut (buffer ++ line)
      let statement := strip U.isSpace statement
      let buffer := strip U.isSpace remainder
      if statement = [] then loop rest buffer shell
      else loop rest buffer (shell.pass client (.ofList statement))
    else loop rest (buffer ++ line) shell

def repl (input : String) (db : σ) : Shell σ :=
  (loop client U (lines '\n' input.toList) []
    ⟨db, [], ["minirel -- type SQL statements ending in ';', or .exit to quit\n"]⟩).write "\n"

end

/-! ## What is passed -/

/-- The statements that the loop passes. -/
def passes (U : Unicode) : List (List Char) → List Char → List (List Char)
  | [], _ => []
  | line :: rest, buffer =>
    if buffer = [] ∧ strip U.isSpace line ∈ exitCommands then []
    else if buffer = [] ∧ strip U.isSpace line = tablesCommand then passes U rest buffer
    else if buffer = [] ∧ strip U.isSpace line = helpCommand then passes U rest buffer
    else if ';' ∈ line then
      let statement := strip U.isSpace (cut (buffer ++ line)).1
      (if statement = [] then [] else [statement]) ++
        passes U rest (strip U.isSpace (cut (buffer ++ line)).2)
    else passes U rest (buffer ++ line)

theorem passed_pass {client : Client σ} {statement : String} {shell : Shell σ} :
    (shell.pass client statement).passed = shell.passed ++ [statement] := by
  rw [Shell.pass]
  cases client.runStatement statement shell.db <;> rfl

theorem passed_loop (client : Client σ) (U : Unicode) (ls : List (List Char)) (buffer : List Char)
    (shell : Shell σ) :
    (loop client U ls buffer shell).passed = shell.passed ++ (passes U ls buffer).map String.ofList := by
  induction ls generalizing buffer shell with
  | nil => exact (List.append_nil _).symm
  | cons line ls ih =>
    unfold loop passes
    dsimp only
    by_cases hexit : buffer = [] ∧ strip U.isSpace line ∈ exitCommands
    · rw [if_pos hexit, if_pos hexit]
      exact (List.append_nil _).symm
    rw [if_neg hexit, if_neg hexit]
    by_cases htables : buffer = [] ∧ strip U.isSpace line = tablesCommand
    · rw [if_pos htables, if_pos htables]
      exact ih buffer _
    rw [if_neg htables, if_neg htables]
    by_cases hhelp : buffer = [] ∧ strip U.isSpace line = helpCommand
    · rw [if_pos hhelp, if_pos hhelp]
      exact ih buffer _
    rw [if_neg hhelp, if_neg hhelp]
    by_cases hends : ';' ∈ line
    · rw [if_pos hends, if_pos hends]
      by_cases hempty : strip U.isSpace (cut (buffer ++ line)).1 = []
      · rw [if_pos hempty, if_pos hempty]
        exact ih _ _
      · rw [if_neg hempty, if_neg hempty, ih, passed_pass]
        simp [Shell.write]
    · rw [if_neg hends, if_neg hends]
      exact ih _ _

/-! ## Lines without commands -/

variable {U : Unicode} {ls : List (List Char)} {buffer : List Char}

/-- What the pieces of a text are passed as. -/
def statementsOf (U : Unicode) (ps : List (List Char)) : List (List Char) :=
  (ps.map (strip U.isSpace)).filter (· ≠ [])

/-- A line that the shell takes for a command of its own. -/
def IsCommand (U : Unicode) (line : List Char) : Prop :=
  strip U.isSpace line ∈ exitCommands ∨ strip U.isSpace line = tablesCommand ∨
    strip U.isSpace line = helpCommand

theorem isSpace_semicolon : U.isSpace ';' = false := isSpace_of_ascii (by decide) (by decide)

theorem isSpace_newline : U.isSpace '\n' = true := by
  rw [U.isSpace_ascii _ (by decide)]
  decide

/-- A command starts with a dot. -/
theorem IsCommand.dot {line : List Char} (h : IsCommand U line) : firstVisible U.isSpace line = some '.' := by
  have hdot : ∀ name, firstVisible U.isSpace ('.' :: name) = some '.' := fun name => by
    simp [firstVisible, show U.isSpace '.' = false from isSpace_of_ascii (by decide) (by decide)]
  rw [← firstVisible_strip]
  rcases h with hexit | htables | hhelp
  · rcases List.mem_cons.mp hexit with heq | hexit
    · rw [heq]
      exact hdot ['e', 'x', 'i', 't']
    · rw [List.mem_singleton.mp hexit]
      exact hdot ['q', 'u', 'i', 't']
  · rw [htables]
    exact hdot ['t', 'a', 'b', 'l', 'e', 's']
  · rw [hhelp]
    exact hdot ['h', 'e', 'l', 'p']

theorem cut_eq {statement rest : List Char} (h : ';' ∉ statement) :
    cut (statement ++ ';' :: rest) = (statement, rest) := by
  rw [cut, takeWhile_break h, dropWhile_break h]
  rfl

/-- No statement that is passed has a semicolon in it. -/
theorem not_mem_of_passes {statement : List Char} (h : statement ∈ passes U ls buffer) :
    ';' ∉ statement := by
  induction ls generalizing buffer with
  | nil => cases h
  | cons line ls ih =>
    unfold passes at h
    split at h
    · cases h
    split at h
    · exact ih h
    split at h
    · exact ih h
    split at h
    · rcases List.mem_append.mp h with hnow | hlater
      · split at hnow
        · cases hnow
        · rw [List.mem_singleton.mp hnow]
          intro hmem
          have hcut := mem_of_mem_strip hmem
          simpa using List.mem_takeWhile_imp hcut
      · exact ih hlater
    · exact ih h

/-- Blanks in front of the first piece are not passed. -/
theorem statementsOf_front {ws : List Char} (hws : ∀ c ∈ ws, U.isSpace c) (ps : List (List Char)) (n : Nat) :
    statementsOf U ((ps.modifyHead (ws ++ ·)).take n) = statementsOf U (ps.take n) := by
  cases ps with
  | nil => rfl
  | cons p ps =>
    cases n with
    | zero => rfl
    | succ n => simp [statementsOf, strip_blanks_append hws]

theorem exists_front {ws : List Char} (hws : ∀ c ∈ ws, U.isSpace c) (ps : List (List Char))
    {last : List Char} (hlast : firstVisible U.isSpace last = none) :
    ∃ ps' last', (ps ++ [last]).modifyHead (ws ++ ·) = ps' ++ [last'] ∧ ps'.length = ps.length ∧
      firstVisible U.isSpace last' = none ∧ statementsOf U ps' = statementsOf U ps := by
  cases ps with
  | nil =>
    refine ⟨[], ws ++ last, rfl, rfl, ?_, rfl⟩
    rw [firstVisible_append, firstVisible_of_blanks hws, hlast]
    rfl
  | cons p ps =>
    exact ⟨(ws ++ p) :: ps, last, rfl, rfl, hlast, by simp [statementsOf, strip_blanks_append hws]⟩

/-- A line with a semicolon finishes the first piece of what is buffered, and the rest is kept
    without the blanks around it. -/
theorem splitOn_line {line : List Char} (hline : ';' ∈ line) (buffer : List Char) :
    ∃ ws, (∀ c ∈ ws, U.isSpace c) ∧ ∀ more,
      (buffer ++ (trimLine U.isSpace ';' line ++ more)).splitOn ';' =
        (cut (buffer ++ line)).1 ::
          ((strip U.isSpace (cut (buffer ++ line)).2 ++ more).splitOn ';').modifyHead (ws ++ ·) := by
  obtain ⟨statement, rest, hsplit, hstatement⟩ := List.eq_append_cons_of_mem
    (show ';' ∈ buffer ++ line from List.mem_append_right _ hline)
  obtain ⟨ws, hws, hrest⟩ := exists_dropWhile U.isSpace (rest.rdropWhile U.isSpace)
  refine ⟨ws, hws, fun more => ?_⟩
  have hseen : firstVisible U.isSpace line ≠ none := fun hnone => by
    have hblank := firstVisible_eq_none.mp hnone _ hline
    rw [isSpace_semicolon] at hblank
    cases hblank
  have htrim : buffer ++ trimLine U.isSpace ';' line =
      statement ++ ';' :: (ws ++ strip U.isSpace rest) := by
    rw [trimLine, if_pos hline, ← rdropWhile_append hseen, hsplit, rdropWhile_cons isSpace_semicolon,
      strip, ← hrest]
  have hblanks : ';' ∉ ws := fun hmem => by
    have hblank := hws _ hmem
    rw [isSpace_semicolon] at hblank
    cases hblank
  rw [hsplit, cut_eq hstatement, ← List.append_assoc, htrim, List.append_assoc, List.cons_append,
    List.append_assoc, List.splitOn_append_cons_self_of_not_mem hstatement, splitOn_front hblanks]

/-- A line that is taken for a command: all that was buffered before it has been passed. -/
structure Interrupted (U : Unicode) (ls : List (List Char)) (buffer : List Char) : Prop where
  command : ∃ before line after ps last, ls = before ++ line :: after ∧ IsCommand U line ∧
    (buffer ++ (before.map (trimLine U.isSpace ';')).flatten).splitOn ';' = ps ++ [last] ∧
    ps.length = before.countP (';' ∈ ·) ∧ firstVisible U.isSpace last = none ∧
    statementsOf U ps <+: passes U ls buffer

/-- Unless a line is taken for a command, the loop passes one piece for each line that has a
    semicolon, from the first piece on. -/
theorem passes_cases (U : Unicode) (ls : List (List Char)) (buffer : List Char) :
    passes U ls buffer = statementsOf U
      (((buffer ++ (ls.map (trimLine U.isSpace ';')).flatten).splitOn ';').take
        (ls.countP (';' ∈ ·))) ∨
    Interrupted U ls buffer := by
  induction ls generalizing buffer with
  | nil => exact .inl rfl
  | cons line ls ih =>
    by_cases hcommand : buffer = [] ∧ IsCommand U line
    · obtain ⟨rfl, hcommand⟩ := hcommand
      exact .inr ⟨[], line, ls, [], [], rfl, hcommand, rfl, rfl, rfl, List.nil_prefix⟩
    have hpasses : passes U (line :: ls) buffer =
        if ';' ∈ line then
          statementsOf U [(cut (buffer ++ line)).1] ++ passes U ls (strip U.isSpace (cut (buffer ++ line)).2)
        else passes U ls (buffer ++ line) := by
      rw [passes, if_neg fun h => hcommand ⟨h.1, .inl h.2⟩, if_neg fun h => hcommand ⟨h.1, .inr (.inl h.2)⟩,
        if_neg fun h => hcommand ⟨h.1, .inr (.inr h.2)⟩]
      split
      · by_cases hempty : strip U.isSpace (cut (buffer ++ line)).1 = []
        · simp [statementsOf, hempty]
        · simp [statementsOf, hempty]
      · rfl
    by_cases hline : ';' ∈ line
    · rw [if_pos hline] at hpasses
      obtain ⟨ws, hws, hsplit⟩ := @splitOn_line U line hline buffer
      have happend : ∀ ps : List (List Char), statementsOf U ((cut (buffer ++ line)).1 :: ps) =
          statementsOf U [(cut (buffer ++ line)).1] ++ statementsOf U ps := fun ps => by
        rw [statementsOf, ← List.singleton_append, List.map_append, List.filter_append]
        rfl
      rcases ih (strip U.isSpace (cut (buffer ++ line)).2) with hplain | hinterrupted
      · left
        rw [hpasses, hplain, List.map_cons, List.flatten_cons, hsplit, List.countP_cons_of_pos (by simpa using hline),
          List.take_succ_cons, happend (List.take _ _), statementsOf_front hws]
      · right
        obtain ⟨before, line', after, ps, last, rfl, hcommand', hps, hcount, hlast, hpassed⟩ := hinterrupted
        obtain ⟨ps', last', hfront, hlength, hlast', hstatements⟩ := exists_front hws ps hlast
        refine ⟨line :: before, line', after, (cut (buffer ++ line)).1 :: ps', last', rfl, hcommand', ?_, ?_,
          hlast', ?_⟩
        · rw [List.map_cons, List.flatten_cons, hsplit, hps, hfront, List.cons_append]
        · rw [List.length_cons, hlength, hcount, List.countP_cons_of_pos (by simpa using hline)]
        · rw [hpasses, happend ps', hstatements]
          exact (List.prefix_append_right_inj _).mpr hpassed
    · rw [if_neg hline] at hpasses
      have htrim : trimLine U.isSpace ';' line = line := if_neg hline
      rcases ih (buffer ++ line) with hplain | hinterrupted
      · left
        rw [hpasses, hplain, List.map_cons, List.flatten_cons, htrim, List.append_assoc,
          List.countP_cons_of_neg (by simpa using hline)]
      · right
        obtain ⟨before, line', after, ps, last, rfl, hcommand', hps, hcount, hlast, hpassed⟩ := hinterrupted
        refine ⟨line :: before, line', after, ps, last, rfl, hcommand', ?_, ?_, hlast, ?_⟩
        · rw [List.map_cons, List.flatten_cons, htrim, ← List.append_assoc]
          exact hps
        · rw [List.countP_cons_of_neg (by simpa using hline)]
          exact hcount
        · rw [hpasses]
          exact hpassed

/-! ## Scripts -/

section
variable {text tail x : List Char} {statements ps qs : List (List Char)} {c : Char}

theorem firstVisible_semicolon {rest : List Char} :
    firstVisible U.isSpace (x ++ ';' :: rest) = (firstVisible U.isSpace x).or (some ';') := by
  rw [firstVisible_append]
  simp [firstVisible, isSpace_semicolon]

/-- What is to be seen first of a text is to be seen first of its first piece. -/
theorem firstVisible_head (hsplit : text.splitOn ';' = x :: qs) (hc : c ≠ ';') :
    firstVisible U.isSpace text = some c ↔ firstVisible U.isSpace x = some c := by
  cases qs with
  | nil =>
    rw [eq_of_splitOn hsplit]
  | cons y qs =>
    obtain ⟨rest, rfl, -⟩ := of_splitOn_cons hsplit
    rw [firstVisible_semicolon]
    cases firstVisible U.isSpace x with
    | none => simp [Ne.symm hc]
    | some d => rw [Option.some_or]

theorem statementsOf_of_visible (h : ∀ p ∈ ps, firstVisible U.isSpace p ≠ none) :
    statementsOf U ps = ps.map (strip U.isSpace) := by
  rw [statementsOf, List.filter_eq_self]
  intro s hs
  obtain ⟨p, hp, rfl⟩ := List.mem_map.mp hs
  simpa [strip_eq_nil] using h p hp

/-- The pieces that the statements of a script become. -/
def hats (U : Unicode) : List (List Char) → List (List Char)
  | [] => []
  | s :: statements => s :: statements.map (splice U.isSpace '\n')

theorem length_hats (U : Unicode) (statements : List (List Char)) :
    (hats U statements).length = statements.length := by
  cases statements with
  | nil => rfl
  | cons s statements => simp [hats]

theorem exists_of_mem_hats {p : List Char} (h : p ∈ hats U statements) :
    ∃ s ∈ statements, firstVisible U.isSpace p = firstVisible U.isSpace s := by
  cases statements with
  | nil => cases h
  | cons s statements =>
    rcases List.mem_cons.mp h with rfl | h
    · exact ⟨p, List.mem_cons_self, rfl⟩
    · obtain ⟨s', hs', rfl⟩ := List.mem_map.mp h
      exact ⟨s', List.mem_cons_of_mem s hs', firstVisible_splice isSpace_newline⟩

theorem splitOn_trimRest (hwhole : ∀ s ∈ statements, ';' ∉ s) :
    (trimRest U.isSpace '\n' ';' (statements.flatMap (· ++ [';']) ++ tail)).splitOn ';' =
      statements.map (splice U.isSpace '\n') ++ (trimRest U.isSpace '\n' ';' tail).splitOn ';' := by
  induction statements with
  | nil => rfl
  | cons s statements ih =>
    have hs := hwhole s List.mem_cons_self
    have hsplice : ';' ∉ splice U.isSpace '\n' s := fun h => hs (mem_of_mem_splice h)
    rw [List.flatMap_cons, List.append_assoc, List.append_assoc, List.singleton_append,
      trimRest_sep isSpace_newline isSpace_semicolon hs,
      List.splitOn_append_cons_self_of_not_mem hsplice,
      ih fun s' hs' => hwhole s' (List.mem_cons_of_mem s hs'), List.map_cons, List.cons_append]

/-- The pieces of a script whose statements have no semicolons: those of the statements, and
    then those of what is behind the last. -/
theorem splitOn_script (U : Unicode) (hwhole : ∀ s ∈ statements, ';' ∉ s) (tail : List Char) :
    ∃ x, (trimLines U.isSpace '\n' ';' (statements.flatMap (· ++ [';']) ++ tail)).splitOn ';' =
        hats U statements ++ x.splitOn ';' ∧
      firstVisible U.isSpace x = firstVisible U.isSpace tail := by
  cases statements with
  | nil => exact ⟨_, rfl, firstVisible_trimLines⟩
  | cons s statements =>
    refine ⟨trimRest U.isSpace '\n' ';' tail, ?_, firstVisible_trimRest isSpace_newline⟩
    have hs := hwhole s List.mem_cons_self
    rw [List.flatMap_cons, List.append_assoc, List.append_assoc, List.singleton_append,
      trimLines_sep isSpace_newline isSpace_semicolon hs,
      List.splitOn_append_cons_self_of_not_mem hs,
      splitOn_trimRest fun s' hs' => hwhole s' (List.mem_cons_of_mem s hs')]
    rfl

/-- What the shell needs to know of the statements and of what is behind the last. -/
structure Visible (U : Unicode) (statements : List (List Char)) (x : List Char) : Prop where
  starts : ∀ s ∈ statements, ∃ c, firstVisible U.isSpace s = some c ∧ c ≠ '.'
  tail : firstVisible U.isSpace x = none ∨ firstVisible U.isSpace x = some '-'

theorem Visible.hats_ne_none (h : Visible U statements x) {p : List Char} (hp : p ∈ hats U statements) :
    firstVisible U.isSpace p ≠ none ∧ firstVisible U.isSpace p ≠ some '.' := by
  obtain ⟨s, hs, heq⟩ := exists_of_mem_hats hp
  obtain ⟨c, hc, hdot⟩ := h.starts s hs
  rw [heq, hc]
  exact ⟨nofun, fun hsame => hdot (Option.some.inj hsame)⟩

/-- A piece behind the statements would be passed too. -/
theorem Visible.le_of_few (h : Visible U statements x) {n : Nat}
    (hn : n < (hats U statements ++ x.splitOn ';').length)
    (hfew : (statementsOf U ((hats U statements ++ x.splitOn ';').take n)).length ≤ statements.length) :
    n ≤ statements.length := by
  by_contra hmore
  rw [List.length_append, length_hats] at hn
  obtain ⟨x₀, x₁, more, hx⟩ : ∃ x₀ x₁ more, x.splitOn ';' = x₀ :: x₁ :: more := by
    match hsplit : x.splitOn ';' with
    | [] => exact absurd hsplit (List.splitOn_ne_nil _ _)
    | [x₀] =>
      rw [hsplit, List.length_singleton] at hn
      omega
    | x₀ :: x₁ :: more => exact ⟨x₀, x₁, more, rfl⟩
  have hcomment : firstVisible U.isSpace x₀ = some '-' := by
    refine (firstVisible_head hx (by decide)).mp (h.tail.resolve_left fun hnone => ?_)
    obtain ⟨rest, rfl, -⟩ := of_splitOn_cons hx
    rw [firstVisible_semicolon] at hnone
    cases hfirst : firstVisible U.isSpace x₀ with
    | none =>
      rw [hfirst] at hnone
      cases hnone
    | some c =>
      rw [hfirst] at hnone
      cases hnone
  have hall : ∀ p ∈ hats U statements ++ [x₀], firstVisible U.isSpace p ≠ none := by
    intro p hp
    rcases List.mem_append.mp hp with hp | hp
    · exact (h.hats_ne_none hp).1
    · rw [List.mem_singleton.mp hp, hcomment]
      nofun
  have htake : (hats U statements ++ x.splitOn ';').take n =
      (hats U statements ++ [x₀]) ++ (x₁ :: more).take (n - (statements.length + 1)) := by
    have hlength : (hats U statements ++ [x₀]).length = statements.length + 1 := by
      rw [List.length_append, length_hats, List.length_singleton]
    rw [hx, ← List.singleton_append, ← List.append_assoc, List.take_append, hlength,
      List.take_of_length_le (by omega)]
  rw [htake, statementsOf, List.map_append, List.filter_append, ← statementsOf, ← statementsOf,
    statementsOf_of_visible hall, List.length_append, List.length_map, List.length_append, length_hats,
    List.length_singleton] at hfew
  omega

/-- The shell takes a line for a command only after more cuts than there are statements. -/
theorem Visible.late (h : Visible U statements x)
    (hsplit : (trimLines U.isSpace '\n' ';' text).splitOn ';' = hats U statements ++ x.splitOn ';')
    (hinterrupted : Interrupted U (lines '\n' text) []) :
    ∃ n, statements.length < n ∧ n < (hats U statements ++ x.splitOn ';').length ∧
      n ≤ (lines '\n' text).countP (';' ∈ ·) ∧
      statementsOf U ((hats U statements ++ x.splitOn ';').take n) <+: passes U (lines '\n' text) [] := by
  obtain ⟨before, line, after, ps, last, hlines, hcommand, hps, hcount, hlast, hpassed⟩ := hinterrupted
  rw [List.nil_append] at hps
  obtain ⟨y, more, hy⟩ : ∃ y more, (last ++ (trimLine U.isSpace ';' line ++
      (after.map (trimLine U.isSpace ';')).flatten)).splitOn ';' = y :: more :=
    List.exists_cons_of_ne_nil (List.splitOn_ne_nil _ _)
  have hpieces : hats U statements ++ x.splitOn ';' = ps ++ y :: more := by
    rw [← hsplit, trimLines, hlines, List.map_append, List.map_cons, List.flatten_append,
      List.flatten_cons, splitOn_append hps, hy]
  have hdot : firstVisible U.isSpace y = some '.' := by
    refine (firstVisible_head hy (by decide)).mp ?_
    have hline : firstVisible U.isSpace (trimLine U.isSpace ';' line) = some '.' := by
      rw [trimLine]
      split
      · rw [firstVisible_rdropWhile, hcommand.dot]
      · exact hcommand.dot
    rw [firstVisible_append, hlast, Option.none_or, firstVisible_append, hline, Option.some_or]
  refine ⟨ps.length, ?_, ?_, ?_, ?_⟩
  · by_contra hle
    have hat : (hats U statements ++ x.splitOn ';')[ps.length]? = some y := by
      rw [hpieces]
      simp
    rcases Nat.lt_or_ge ps.length statements.length with hlt | hge
    · rw [List.getElem?_append_left (by rwa [length_hats])] at hat
      exact (h.hats_ne_none (List.mem_of_getElem? hat)).2 hdot
    · obtain ⟨x₀, rest, hx⟩ : ∃ x₀ rest, x.splitOn ';' = x₀ :: rest :=
        List.exists_cons_of_ne_nil (List.splitOn_ne_nil _ _)
      have hlength : ps.length = (hats U statements).length := by
        rw [length_hats]
        omega
      rw [hlength, hx, List.getElem?_append_right le_rfl, Nat.sub_self] at hat
      obtain rfl := Option.some.inj hat
      have hx' := (firstVisible_head hx (by decide)).mpr hdot
      rcases h.tail with hnone | hcomment
      · cases hnone.symm.trans hx'
      · cases hcomment.symm.trans hx'
  · rw [hpieces]
    simp
  · rw [hcount, hlines, List.countP_append]
    exact Nat.le_add_right _ _
  · rw [hpieces, List.take_left]
    exact hpassed

/-- The layouts that the shell can deal with. No statement has a semicolon in it, there are as
    many lines with a semicolon as there are statements, and no statement that begins on the line
    on which another ends goes on on a later line. -/
structure LaidOut (U : Unicode) (text : List Char) (statements : List (List Char)) : Prop where
  whole : ∀ s ∈ statements, ';' ∉ s
  ends : (lines '\n' text).countP (';' ∈ ·) = statements.length
  unbroken : ∀ s ∈ statements.tail, ¬Broken U.isSpace '\n' s

theorem map_strip_hats_iff :
    (hats U statements).map (strip U.isSpace) = statements.map (strip U.isSpace) ↔
      ∀ s ∈ statements.tail, ¬Broken U.isSpace '\n' s := by
  cases statements with
  | nil => simp [hats]
  | cons s statements =>
    rw [hats, List.map_cons, List.map_cons, List.cons.injEq, List.tail_cons, List.map_map,
      List.map_inj_left]
    simp only [true_and, Function.comp_apply, strip_splice_iff isSpace_newline]

/-- Of a script whose statements have no semicolons, as many pieces are passed as there are lines
    with a semicolon. -/
theorem passes_iff_of_whole (hscript : Script U text statements) (hwhole : ∀ s ∈ statements, ';' ∉ s) :
    passes U (lines '\n' text) [] = statements.map (strip U.isSpace) ↔
      (lines '\n' text).countP (';' ∈ ·) = statements.length ∧
        ∀ s ∈ statements.tail, ¬Broken U.isSpace '\n' s := by
  obtain ⟨tail, htext, hstarts, htail⟩ := hscript.shape
  obtain ⟨x, hsplit, hx⟩ := splitOn_script U hwhole tail
  rw [← htext] at hsplit
  have hvisible : Visible U statements x := ⟨hstarts, hx ▸ htail⟩
  have hall : ∀ ps ⊆ hats U statements, statementsOf U ps = ps.map (strip U.isSpace) := fun ps hps =>
    statementsOf_of_visible fun p hp => (hvisible.hats_ne_none (hps hp)).1
  rw [← map_strip_hats_iff]
  rcases passes_cases U (lines '\n' text) [] with hplain | hinterrupted
  · rw [List.nil_append, ← trimLines, hsplit] at hplain
    rw [hplain]
    constructor
    · intro h
      have hcount : (lines '\n' text).countP (';' ∈ ·) < (hats U statements ++ x.splitOn ';').length := by
        rw [← hsplit, length_splitOn]
        exact Nat.lt_succ_of_le (countP_lines_le isSpace_semicolon)
      have hle := hvisible.le_of_few hcount (by rw [h, List.length_map])
      rw [List.take_append_of_le_length (by rwa [length_hats]), hall _ (List.take_subset _ _)] at h
      have hlength := congrArg List.length h
      rw [List.length_map, List.length_map, List.length_take, length_hats] at hlength
      have hends : (lines '\n' text).countP (';' ∈ ·) = statements.length := by omega
      refine ⟨hends, ?_⟩
      rwa [hends, List.take_of_length_le (length_hats U statements).le] at h
    · rintro ⟨hends, hsame⟩
      rw [hends, ← length_hats U, List.take_left, hall _ (List.Subset.refl _), hsame]
  · obtain ⟨n, hlate, hn, hcount, hpassed⟩ := hvisible.late hsplit hinterrupted
    refine iff_of_false (fun h => ?_) fun h => ?_
    · rw [h] at hpassed
      have hfew := hpassed.length_le
      rw [List.length_map] at hfew
      have := hvisible.le_of_few hn hfew
      omega
    · omega

/-- The shell passes the statements of a script and nothing else exactly if the script is laid
    out so. -/
theorem passes_iff (hscript : Script U text statements) :
    passes U (lines '\n' text) [] = statements.map (strip U.isSpace) ↔ LaidOut U text statements := by
  constructor
  · intro h
    have hwhole : ∀ s ∈ statements, ';' ∉ s := by
      intro s hs hmem
      have hpassed : strip U.isSpace s ∈ passes U (lines '\n' text) [] := by
        rw [h]
        exact List.mem_map_of_mem hs
      exact not_mem_of_passes hpassed (mem_strip hmem isSpace_semicolon)
    obtain ⟨hends, hunbroken⟩ := (passes_iff_of_whole hscript hwhole).mp h
    exact ⟨hwhole, hends, hunbroken⟩
  · intro h
    exact (passes_iff_of_whole hscript h.whole).mpr ⟨h.ends, h.unbroken⟩

end

/-- On a script the shell passes exactly its statements, each once and in order, if and only if
    the script is laid out so that it can deal with it. -/
theorem repl_passes_iff (client : Client σ) (U : Unicode) (db : σ) {input : String}
    {statements : List (List Char)} (hscript : Script U input.toList statements) :
    (repl client U input db).passed = statements.map (fun s => .ofList (strip U.isSpace s)) ↔
      LaidOut U input.toList statements := by
  have hpassed : (repl client U input db).passed =
      (passes U (lines '\n' input.toList) []).map String.ofList := passed_loop client U _ _ _
  have hstatements : statements.map (fun s => String.ofList (strip U.isSpace s)) =
      (statements.map (strip U.isSpace)).map String.ofList := by
    rw [List.map_map]
    rfl
  rw [hpassed, hstatements, ← passes_iff hscript]
  exact List.map_inj_right fun _ _ heq => String.ofList_injective heq

/-! ## Two statements -/

/-- A database that does nothing. -/
def idle : Client Unit := ⟨fun _ => pure "", fun _ => "", fun _ => []⟩

/-- The pieces of a deletion. -/
def deletion (table : List Char) : List Piece :=
  [(.ident, "DELETE".toList), (.whitespace, [' ']), (.ident, "FROM".toList), (.whitespace, [' ']),
    (.ident, table)]

/-- Each on a line of its own: both are passed. -/
theorem repl_passes_iff_lines :
    (repl idle .ascii "DELETE FROM t;\nDELETE FROM u;\n" ()).passed =
      [textOf (deletion ['t']), textOf ((.whitespace, ['\n']) :: deletion ['u'])].map
        (fun s => .ofList (strip Unicode.ascii.isSpace s)) ↔
      LaidOut .ascii "DELETE FROM t;\nDELETE FROM u;\n".toList
        [textOf (deletion ['t']), textOf ((.whitespace, ['\n']) :: deletion ['u'])] :=
  repl_passes_iff idle .ascii () ⟨[deletion ['t'], (.whitespace, ['\n']) :: deletion ['u']],
    [(.whitespace, ['\n'])], by decide, by decide, rfl, by decide, by decide⟩

/-- Both on one line: the shell passes the first and keeps the other for ever. -/
theorem repl_one_line :
    Script .ascii "DELETE FROM t; DELETE FROM u;\n".toList
      [textOf (deletion ['t']), textOf ((.whitespace, [' ']) :: deletion ['u'])] ∧
    (repl idle .ascii "DELETE FROM t; DELETE FROM u;\n" ()).passed = ["DELETE FROM t"] ∧
    [textOf (deletion ['t']), textOf ((.whitespace, [' ']) :: deletion ['u'])].map
      (fun s => String.ofList (strip Unicode.ascii.isSpace s)) = ["DELETE FROM t", "DELETE FROM u"] := by
  refine ⟨⟨[deletion ['t'], (.whitespace, [' ']) :: deletion ['u']], [(.whitespace, ['\n'])],
    by decide, by decide, rfl, by decide, by decide⟩, by decide, by decide⟩

end Repl
end Minirel

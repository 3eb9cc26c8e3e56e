-- SUMMARY: When SELECT * shows the values that an INSERT was given.
import Minirel.SelectStar
import Minirel.FailedIndex

/-!
# What an INSERT stores

`encode_value` converts a value to the type of its column and does not ask whether anything is
lost. An INSERT that has returned is compared here with what a later `SELECT *` shows of its
rows.
-/

namespace Minirel

variable {C : Conversions} {A : FloatArithmetic} {lower : String → String} {value : Value}
  {colType : ColumnType} {cell : Cell} {schema : Schema} {name : String}

/-! ## Values that a column keeps -/

/-- A value that is kept by a column of the type: for INT a whole number, for FLOAT a number that
    `float` does not round, for BOOL a truth value, 0 or 1, for TEXT a text. -/
def Survives (C : Conversions) (value : Value) : ColumnType → Prop
  | .int => ∃ i, value.eq (.int i) = true
  | .float => ∃ x, C.toFloat value = .ok x ∧ (Value.float x).eq value = true
  | .bool => ∃ b, value.eq (.bool b) = true
  | .text => ∃ text, value = .str text

theorem Value.eq_comm (a b : Value) : a.eq b = b.eq a := by
  rw [Bool.eq_iff_iff, Value.eq_iff, Value.eq_iff]
  constructor
  all_goals
    rintro (⟨x, y, r, hx, hy, hr, hr'⟩ | ⟨ha, hb⟩ | ⟨text, ha, hb⟩)
    · exact .inl ⟨y, x, r, hy, hx, hr', hr⟩
    · exact .inr (.inl ⟨hb, ha⟩)
    · exact .inr (.inr ⟨text, hb, ha⟩)

theorem Value.eq_iff_finite {a b : Value} {q r : ℚ} (ha : a.number? = some (.finite q))
    (hb : b.number? = some (.finite r)) : a.eq b = true ↔ q = r := by
  simp [Value.eq, ha, hb, PyFloat.compare, PyFloat.rank?]

/-- The whole number that `int` makes of a value is the value only if that is whole. -/
theorem Value.eq_toInt {i : Int} (h : C.toInt value = .ok i) :
    (Value.int i).eq value = true ↔ ∃ j, value.eq (.int j) = true := by
  refine ⟨fun heq => ⟨i, by rw [Value.eq_comm, heq]⟩, fun ⟨j, hj⟩ => ?_⟩
  suffices hij : i = j by rw [hij, Value.eq_comm, hj]
  cases value with
  | none => cases h
  | bool b =>
    cases h
    have hb := (Value.eq_iff_finite rfl rfl).mp hj
    cases b <;> exact_mod_cast hb
  | int k =>
    cases h
    exact_mod_cast (Value.eq_iff_finite rfl rfl).mp hj
  | float x =>
    cases x with
    | nan => cases h
    | negInf => cases h
    | posInf => cases h
    | finite q =>
      cases h
      obtain rfl := (Value.eq_iff_finite rfl rfl).mp hj
      simp
  | str s => cases hj

theorem Value.eq_truthy :
    (Value.bool value.truthy).eq value = true ↔ ∃ b, value.eq (.bool b) = true := by
  refine ⟨fun heq => ⟨_, by rw [Value.eq_comm, heq]⟩, fun ⟨b, hb⟩ => ?_⟩
  suffices htruthy : value.truthy = b by rw [htruthy, Value.eq_comm, hb]
  cases value with
  | none => cases hb
  | bool c =>
    have hc := (Value.eq_iff_finite rfl rfl).mp hb
    cases b <;> cases c <;> simp_all [Value.truthy]
  | int k =>
    have hk := (Value.eq_iff_finite rfl rfl).mp hb
    cases b <;> simp_all [Value.truthy]
  | float x =>
    cases x with
    | finite q =>
      obtain rfl := (Value.eq_iff_finite rfl rfl).mp hb
      cases b <;> simp [Value.truthy]
    | _ => cases b <;> cases hb
  | str s => cases hb

/-- What a column holds equals the value it was given exactly if the value survives. -/
theorem encodeValue_survives (h : encodeValue C value colType = .ok cell) :
    cell.value.eq value = true ↔ Survives C value colType := by
  cases colType with
  | int =>
    obtain ⟨i, hi, h⟩ := bind_eq_ok.mp h
    split at h
    · cases h
      exact Value.eq_toInt hi
    · cases h
  | float =>
    obtain ⟨x, hx, h⟩ := bind_eq_ok.mp h
    cases h
    constructor
    · intro heq
      exact ⟨x, hx, heq⟩
    · rintro ⟨y, hy, heq⟩
      exact Except.ok.inj (hx.symm.trans hy) ▸ heq
  | bool =>
    cases h
    exact Value.eq_truthy
  | text =>
    simp only [encodeValue] at h
    split at h
    · cases h
      constructor
      · intro heq
        obtain ⟨_, _, _, hnumber, -⟩ | ⟨hnone, -⟩ | ⟨text, -, htext⟩ := Value.eq_iff.mp heq
        · cases hnumber
        · cases hnone
        · exact ⟨text, htext⟩
      · rintro ⟨text, rfl⟩
        exact decide_eq_true rfl
    · cases h

namespace Database

variable {tr : Tracked} {db db' : Database} {v : View} {c c' : Content} {table : TableMeta}
  {txn : Transaction} {t : String} {columns : Option (List String)} {exprs : List (List Expr)}
  {given : List (String × Value)} {values : List Value} {tup : Tuple} {rid : RID}

/-! ## The rows of an INSERT -/

/-- `stmt.columns or tuple(table.schema.names)`. -/
def namedColumns (schema : Schema) (columns : Option (List String)) : List String :=
  match columns with
  | none | some [] => schema.names
  | some columns => columns

/-- The values that an INSERT gives for a row, under the names of their columns. -/
def givenValues (names : List String) (exprs : List Expr) : Except PyError (List (String × Value)) :=
  (names.zip exprs).mapM fun (name, e) => do return (name, ← evaluateLiteral e)

/-- A row shows in every column of the table the values that were given for it. -/
def Shows (schema : Schema) (given : List (String × Value)) (row : Row) : Prop :=
  ∀ x ∈ given, x.1 ∈ schema.names → ∃ w, row.get? x.1 = some (.value w) ∧ w.eq x.2 = true

/-- What is given for a row survives: `SELECT *` shows its columns, and where names repeat, the
    last column of the name keeps the last value given for it, which equals the others. -/
def RowSurvives (C : Conversions) (schema : Schema) (given : List (String × Value)) : Prop :=
  ∀ x ∈ given, x.1 ∈ schema.names → Shown x.1 ∧
    ∃ col value, schema.lastColumn x.1 = some col ∧ (Dict.ofList given).get? x.1 = some value ∧
      Survives C value col.type ∧ value.eq x.2 = true

theorem of_resolveRow {schema : Schema} {names : List String} {es : List Expr}
    (h : resolveRow C schema names es = .ok values) :
    ∃ given, givenValues names es = .ok given ∧
      schema.names.mapM (lookup (.ofList given)) = .ok values := by
  unfold resolveRow at h
  split at h
  · cases h
  · obtain ⟨given, hgiven, h⟩ := bind_eq_ok.mp h
    dsimp only at h
    split at h
    · cases h
    · exact ⟨given, hgiven, h⟩

/-- A new version shows what was given for it exactly if that survives. -/
theorem shows_iff {schema : Schema} {x : RID × Tuple}
    (hnamed : schema.names.mapM (lookup (.ofList given)) = .ok values)
    (hencode : encodeRow C values schema = .ok x.2.payload) :
    Shows schema given (starRow t schema x) ↔ RowSurvives C schema given := by
  have hrow : ∀ name ∈ schema.names, ∃ col value cell, schema.lastColumn name = some col ∧
      (Dict.ofList given).get? name = some value ∧ encodeValue C value col.type = .ok cell ∧
      (starRow t schema x).get? name = if Shown name then some (.value cell.value) else none := by
    intro name hname
    obtain ⟨col, value, cell, hlast, hvalue, henc, hfind⟩ := exists_field hnamed hencode hname
    refine ⟨col, value, cell, hlast, hvalue, henc, ?_⟩
    rw [starRow, get?_shownPart]
    split
    · rename_i hshown
      exact get?_rowOf (encodeRow_types hencode) hshown hfind
    · rfl
  constructor
  · intro h y hy hname
    obtain ⟨col, value, cell, hlast, hvalue, henc, hget⟩ := hrow y.1 hname
    have hshows : ∀ w, (y.1, w) ∈ given → Shown y.1 ∧ cell.value.eq w = true := by
      intro w hw
      obtain ⟨w', hw', heq⟩ := h _ hw hname
      rw [hget] at hw'
      split at hw'
      · rename_i hshown
        cases hw'
        exact ⟨hshown, heq⟩
      · cases hw'
    have hmem : (y.1, value) ∈ given := by
      rw [Dict.get?_ofList] at hvalue
      obtain ⟨z, hz, rfl⟩ := Option.map_eq_some_iff.mp hvalue
      have hname : z.1 = y.1 := by simpa using List.find?_some hz
      rw [← hname]
      exact List.mem_reverse.mp (List.mem_of_find?_eq_some hz)
    obtain ⟨hshown, heq⟩ := hshows y.2 hy
    have hkept := (hshows value hmem).2
    refine ⟨hshown, col, value, hlast, hvalue, (encodeValue_survives henc).mp hkept, ?_⟩
    exact Value.eq_trans ((Value.eq_comm _ _).trans hkept) heq
  · intro h y hy hname
    obtain ⟨hshown, col', value', hlast', hvalue', hsurvives, heq⟩ := h y hy hname
    obtain ⟨col, value, cell, hlast, hvalue, henc, hget⟩ := hrow y.1 hname
    obtain rfl := Option.some.inj (hlast'.symm.trans hlast)
    obtain rfl := Option.some.inj (hvalue'.symm.trans hvalue)
    rw [if_pos hshown] at hget
    exact ⟨cell.value, hget, Value.eq_trans ((encodeValue_survives henc).mpr hsurvives) heq⟩

/-- The versions that an INSERT adds, one for each row. -/
theorem RowSteps.inserted {mgr : TransactionManager LogOp} {rows : List (List Value)}
    (h : RowSteps C tr mgr table txn (rows.map .insert) c c') :
    ∃ news, c'.tuples table.name = c.tuples table.name ++ news ∧
      (∀ x ∈ news, x.2.xmin = txn.txnId ∧ x.2.xmax = infinityTxn) ∧
      List.Forall₂ (fun values (x : RID × Tuple) => encodeRow C values table.schema = .ok x.2.payload)
        rows news := by
  induction rows generalizing c with
  | nil =>
    cases h
    exact ⟨[], (List.append_nil _).symm, nofun, .nil⟩
  | cons values rows ih =>
    cases h with
    | cons step rest =>
      cases step with
      | @insert _ _ rid tup new unseen =>
        obtain ⟨news, htuples, hids, hnews⟩ := ih rest
        have hid := And.intro new.version.xmin new.version.xmax
        refine ⟨(rid, tup) :: news, ?_, List.forall_mem_cons.mpr ⟨hid, hids⟩,
          .cons new.version.encoded hnews⟩
        have hadd : (c.add table.name (rid, tup)).tuples table.name =
            c.tuples table.name ++ [(rid, tup)] := Function.update_self _ _ _
        rw [htuples, Content.tuples_addKeys, hadd, List.append_assoc, List.singleton_append]

/-! ## SELECT * before and after -/

/-- Before an INSERT and after it `SELECT *` returns in a fresh transaction the same rows, but for
    one at the end for each row of the INSERT, which shows the values given for it. -/
def ShowsGiven (C : Conversions) (A : FloatArithmetic) (lower : String → String) (table : TableMeta)
    (columns : Option (List String)) (exprs : List (List Expr)) (db db' : Database) : Prop :=
  ∃ before rows db₁ db₂, autocommit (selectStar C A lower table.name) db = .ok before db₁ ∧
    autocommit (selectStar C A lower table.name) db' = .ok (before ++ rows) db₂ ∧
    List.Forall₂ (fun es row => ∃ given,
      givenValues (namedColumns table.schema columns) es = .ok given ∧ Shows table.schema given row) exprs rows

/-- Everything that an INSERT gives survives. -/
def RowsSurvive (C : Conversions) (table : TableMeta) (columns : Option (List String))
    (exprs : List (List Expr)) : Prop :=
  ∀ es ∈ exprs, ∃ given, givenValues (namedColumns table.schema columns) es = .ok given ∧
    RowSurvives C table.schema given

/-- What an INSERT that has returned leaves behind: its rows are seen by a fresh transaction,
    besides those that were seen before. -/
structure Inserted (C : Conversions) (table : TableMeta) (rows : List (List Value)) (db : Database)
    (v : View) (db' : Database) (v' : View) (news : List (RID × Tuple)) : Prop where
  sound : Sound C never db' v'
  lt : db.mgr.nextTxnId < 2 ^ 32
  next : db'.mgr.nextTxnId = db.mgr.nextTxnId + 1
  found : ∃ table', db'.catalog.tables.get? table.name = some table' ∧ table'.schema = table.schema
  versions : List.Forall₂ (fun values (x : RID × Tuple) =>
    encodeRow C values table.schema = .ok x.2.payload) rows news
  seen : seen db'.mgr db'.session.newTxn.snapshot (v'.tuples table.name) =
    seen db.mgr db.session.newTxn.snapshot (v.tuples table.name) ++ news

theorem execute_insert_ok (hg : Good C never db) (hs : Sound C never db v) (hissued : Issued db)
    (ht : db.catalog.getTable t = .ok table) {r : ExecuteResult}
    (hrun : execute C (.insert t columns exprs) none db = .ok r db') (hroom : Room db') :
    ∃ rows v' news, resolveInsertValues C table.schema columns exprs = .ok rows ∧
      Inserted C table rows db v db' v' news := by
  have hrun' : autocommit (dispatch C (.insert t columns exprs)) db = .ok r db' := hrun
  have honRows : Statement.OnRows (.insert t columns exprs) := trivial
  obtain ⟨db₂, hdone, hcommitted⟩ := autocommit_rows honRows hg hs hrun' hroom
  obtain ⟨table', acts, v', htargets, hself, -, hsound, hwithin, hsteps⟩ := hdone
  cases htargets with
  | @insert _ _ _ _ rows ht' hrows =>
    obtain rfl := Except.ok.inj (ht.symm.trans ht')
    obtain ⟨news, htuples, hids, hnews⟩ := hsteps.inserted
    refine ⟨rows, v', news, hrows, hsound.congr hcommitted.pages hcommitted.catalog, hcommitted.lt,
      hcommitted.next, ?_, hnews, ?_⟩
    · obtain ⟨table₂, ht₂, hshape⟩ := Catalog.get?_of_shape hwithin.shape.symm hself
      rw [hcommitted.catalog]
      exact ⟨table₂, ht₂, (TableMeta.of_shape hshape).2.1⟩
    · rw [htuples, seen, List.filter_append]
      exact congrArg₂ _ (hcommitted.seen_eq fun x hx => hissued.mem hs hself hx)
        (hcommitted.seen_new hg.inv hids)

/-- Rows that are made of the elements of a list, of which each shows what it should exactly under
    a condition on the element. -/
theorem forall₂_map_iff {ι κ ρ : Type} {R : ι → κ → Prop} {P : ι → ρ → Prop} {Q : ι → Prop} {f : κ → ρ}
    {l : List ι} {l' : List κ} (h : List.Forall₂ R l l') (hR : ∀ a b, R a b → (P a (f b) ↔ Q a)) :
    List.Forall₂ P l (l'.map f) ↔ ∀ a ∈ l, Q a := by
  induction h with
  | nil => simp
  | cons hab _ ih => rw [List.map_cons, List.forall₂_cons, List.forall_mem_cons, ih, hR _ _ hab]

theorem forall₂_comp {ι κ ρ : Type} {R : ι → κ → Prop} {S : κ → ρ → Prop} {l : List ι} {l' : List κ}
    {l'' : List ρ} (h : List.Forall₂ R l l') (h' : List.Forall₂ S l' l'') :
    List.Forall₂ (fun a c => ∃ b, R a b ∧ S b c) l l'' := by
  induction h generalizing l'' with
  | nil =>
    cases h'
    exact .nil
  | cons hab _ ih =>
    cases h' with
    | cons hbc h' => exact .cons ⟨_, hab, hbc⟩ (ih h')

theorem forall₂_of_mapM {ι κ : Type} {f : ι → Except PyError κ} {l : List ι} {l' : List κ}
    (h : l.mapM f = .ok l') : List.Forall₂ (fun a b => f a = .ok b) l l' := by
  have hmap := mapM_eq_ok.mp h
  rw [← List.forall₂_eq_eq_eq, List.forall₂_map_left_iff, List.forall₂_map_right_iff] at hmap
  exact hmap

theorem Inserted.shown_iff {rows : List (List Value)} {v' : View} {news : List (RID × Tuple)}
    (h : Inserted C table rows db v db' v' news) (hs : Sound C never db v)
    (ht : db.catalog.tables.get? table.name = some table)
    (hrows : resolveInsertValues C table.schema columns exprs = .ok rows) :
    ShowsGiven C A lower table columns exprs db db' ↔
      db.mgr.nextTxnId + 1 < 2 ^ 32 ∧ RowsSurvive C table columns exprs := by
  obtain ⟨db₁, hbefore⟩ : ∃ db₁, autocommit (selectStar C A lower table.name) db = _ :=
    hs.autocommit_selectStar ht h.lt
  obtain ⟨table', ht', hschema⟩ := h.found
  -- each row, with the version that is made of it
  have hresolved : List.Forall₂ (fun es values =>
      resolveRow C table.schema (namedColumns table.schema columns) es = .ok values) exprs rows :=
    forall₂_of_mapM hrows
  have hmade : List.Forall₂ (fun es (x : RID × Tuple) => ∃ values,
      resolveRow C table.schema (namedColumns table.schema columns) es = .ok values ∧
      encodeRow C values table.schema = .ok x.2.payload) exprs news :=
    forall₂_comp hresolved h.versions
  have hshown : List.Forall₂ (fun es row => ∃ given,
      givenValues (namedColumns table.schema columns) es = .ok given ∧ Shows table.schema given row)
      exprs (news.map (starRow table.name table.schema)) ↔ RowsSurvive C table columns exprs := by
    refine forall₂_map_iff hmade ?_
    rintro es x ⟨values, hvalues, hencode⟩
    obtain ⟨given, hgiven, hnamed⟩ := of_resolveRow hvalues
    simp only [hgiven, Except.ok.injEq, exists_eq_left', shows_iff hnamed hencode]
  have hselect : db'.mgr.nextTxnId < 2 ^ 32 → ∃ db₂, autocommit (selectStar C A lower table.name) db' =
      .ok ((Database.seen db.mgr db.session.newTxn.snapshot (v.tuples table.name)).map
        (starRow table.name table.schema) ++ news.map (starRow table.name table.schema)) db₂ := by
    intro hlt
    rw [← List.map_append, ← h.seen, ← hschema]
    exact h.sound.autocommit_selectStar ht' hlt
  constructor
  · rintro ⟨before, shown, db₁', db₂, hbefore', hrun, hall⟩
    obtain ⟨_, _, _, _, hbegun, -⟩ := autocommit_eq_ok.mp hrun
    have hlt := (begin_eq_ok hbegun).2.2.1
    refine ⟨h.next ▸ hlt, hshown.mp ?_⟩
    obtain ⟨db₃, hafter⟩ := hselect hlt
    cases hbefore'.symm.trans hbefore
    cases List.append_cancel_left (EStateM.Result.ok.inj (hrun.symm.trans hafter)).1
    exact hall
  · rintro ⟨hlt, hall⟩
    obtain ⟨db₂, hafter⟩ := hselect (h.next ▸ hlt)
    exact ⟨_, _, db₁, db₂, hbefore, hafter, hshown.mpr hall⟩

/-- `SELECT *` shows the rows of an INSERT as they were given if and only if every value survives,
    and there is an id left for the transaction of the SELECT. -/
theorem showsGiven_iff (h : Reachable C db) (ht : db.catalog.getTable t = .ok table) {r : ExecuteResult}
    (hrun : execute C (.insert t columns exprs) none db = .ok r db') (hroom : Room db') :
    ShowsGiven C A lower table columns exprs db db' ↔
      db.mgr.nextTxnId + 1 < 2 ^ 32 ∧ RowsSurvive C table columns exprs := by
  have hroom₀ : Room db := by
    rw [← after_ok hrun] at hroom
    exact (Step.execute (C := C) (.insert t columns exprs)).room hroom
  obtain ⟨hi, v, hs⟩ := h.good hroom₀
  obtain ⟨rows, v', news, hrows, hinserted⟩ :=
    execute_insert_ok ⟨hi, v, hs⟩ hs (h.issued hroom₀) ht hrun hroom
  exact hinserted.shown_iff hs (hs.current ht).2.1 hrows

/-- INSERT INTO t VALUES (7), where the column is of type INT. -/
theorem showsGiven_seven : ∃ table r db', oneTable.catalog.getTable "t" = .ok table ∧
    execute .integral insertSeven none oneTable = .ok r db' ∧
    ShowsGiven .integral .exact id table none [[.literal (.int 7)]] oneTable db' := by
  have htable : (match oneTable.catalog.getTable "t" with
      | .ok table => decide (table.schema = ⟨[⟨"a", .int⟩]⟩)
      | .error _ => false) = true := by
    decide +kernel
  have hreturns : (match execute .integral insertSeven none oneTable with
      | .ok _ db' => decide (db'.pages.length < invalidPageId)
      | .error _ _ => false) = true := by
    decide +kernel
  split at htable
  · rename_i table hfound
    split at hreturns
    · rename_i r db' hrun
      have hroom : db'.pages.length < invalidPageId := of_decide_eq_true hreturns
      refine ⟨table, r, db', hfound, hrun, ?_⟩
      refine (showsGiven_iff reachable_oneTable hfound hrun hroom).mpr ⟨by decide +kernel, ?_⟩
      intro es hes
      obtain rfl := List.mem_singleton.mp hes
      rw [of_decide_eq_true htable]
      refine ⟨[("a", .int 7)], rfl, fun x hx _ => ?_⟩
      obtain rfl := List.mem_singleton.mp hx
      exact ⟨by decide, ⟨"a", .int⟩, .int 7, rfl, rfl, ⟨7, by decide⟩, by decide⟩
    · cases hreturns
  · cases htable

/-- INSERT INTO t VALUES (NULL), where the column is of type TEXT, stores the text 'None'. -/
theorem stores_none : ∃ table r db', Reachable .integral oneText ∧
    oneText.catalog.getTable "t" = .ok table ∧
    execute .integral (.insert "t" none [[.literal .none]]) none oneText = .ok r db' ∧
    ¬ShowsGiven .integral .exact id table none [[.literal .none]] oneText db' := by
  have htable : (match oneText.catalog.getTable "t" with
      | .ok table => decide (table.name = "t" ∧ table.schema = ⟨[⟨"s", .text⟩]⟩)
      | .error _ => false) = true := by
    decide +kernel
  have hreturns : (match execute .integral (.insert "t" none [[.literal .none]]) none oneText with
      | .ok _ db' =>
        (match autocommit (selectStar .integral .exact id "t") db' with
          | .ok rows _ => decide (rows = [[("s", .value (.str "None"))]])
          | .error _ _ => false)
      | .error _ _ => false) = true := by
    decide +kernel
  split at htable
  · rename_i table hfound
    obtain ⟨hname, hschema⟩ := of_decide_eq_true htable
    split at hreturns
    · rename_i r db' hrun
      refine ⟨table, r, db', .call .fresh (.execute _), hfound, hrun, ?_⟩
      rintro ⟨before, rows, db₁, db₂, -, hafter, hall⟩
      rw [hname] at hafter
      rw [hafter] at hreturns
      have hshown : before ++ rows = [[("s", .value (.str "None"))]] := of_decide_eq_true hreturns
      cases hall with
      | @cons _ row _ rows hrow hnil =>
        cases hnil
        obtain rfl : row = [("s", .value (.str "None"))] := by
          simpa using congrArg List.getLast? hshown
        obtain ⟨given, hgiven, hshows⟩ := hrow
        rw [hschema] at hgiven hshows
        cases hgiven
        obtain ⟨w, hw, heq⟩ := hshows ("s", .none) List.mem_cons_self (by decide)
        cases hw
        cases heq
    · cases hreturns
  · cases htable

end Database
end Minirel

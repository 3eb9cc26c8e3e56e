-- SUMMARY: When a scan through an index selects the rows that the WHERE clause selects.
import Minirel.Planner
import Minirel.Index.Insert
import Mathlib.Data.List.Perm.Basic

/-!
# Index pushdown

The planner drops one conjunct of the WHERE clause and looks its literal up in an index.
Here the rows this yields are compared with those of a sequential scan under the whole
clause.
-/

namespace Minirel

open Row (Item)

/-! ## Conjunctions -/

/-- Conjuncts are evaluated from left to right, up to the first that does not hold. -/
def allHold : List Expr → Row → Except PyError Bool
  | [], _ => .ok true
  | c :: cs, row => do if ← holds c row then allHold cs row else return false

theorem allHold_append (cs ds : List Expr) (row : Row) :
    allHold (cs ++ ds) row = do if ← allHold cs row then allHold ds row else return false := by
  induction cs with
  | nil => rfl
  | cons c cs ih =>
    simp only [List.cons_append, allHold, ih]
    cases holds c row with
    | error e => rfl
    | ok b => cases b <;> rfl

theorem allHold_singleton (c : Expr) (row : Row) : allHold [c] row = holds c row := by
  simp only [allHold]
  cases holds c row with
  | error e => rfl
  | ok b => cases b <;> rfl

theorem allHold_conjuncts (e : Expr) (row : Row) : allHold (conjuncts e) row = holds e row := by
  fun_induction conjuncts e with
  | case1 left right ihl ihr => rw [allHold_append, ihl, ihr, holds_and]
  | case2 e _ => exact allHold_singleton e row

theorem holds_foldl_and (c : Expr) (cs : List Expr) (row : Row) :
    holds (cs.foldl (fun e c => .binaryOp .and e c) c) row = allHold (c :: cs) row := by
  induction cs using List.reverseRecOn with
  | nil => exact (allHold_singleton c row).symm
  | append_singleton cs d ih =>
    rw [List.foldl_append, List.foldl_cons, List.foldl_nil, holds_and, ih, ← List.cons_append,
      allHold_append, allHold_singleton]

/-- What is left to filter holds on a row. -/
def residualHolds : Option Expr → Row → Except PyError Bool
  | none, _ => .ok true
  | some e, row => holds e row

theorem residualHolds_eq (where_ : Option Expr) (row : Row) :
    residualHolds where_ row = allHold (flattenAnd where_) row := by
  cases where_ with
  | none => rfl
  | some e => exact (allHold_conjuncts e row).symm

theorem residualHolds_rebuildAnd (cs : List Expr) (row : Row) :
    residualHolds (rebuildAnd cs) row = allHold cs row := by
  cases cs with
  | nil => rfl
  | cons c cs => exact holds_foldl_and c cs row

/-- Dropping a conjunct that holds changes nothing. -/
theorem allHold_drop {before after : List Expr} {c : Expr} {row : Row}
    (h : holds c row = .ok true) :
    allHold (before ++ c :: after) row = allHold (before ++ after) row := by
  rw [allHold_append, allHold_append]
  simp only [allHold, h]
  rfl

/-- A conjunction with a conjunct that does not hold is not true. -/
theorem allHold_ne_true {before after : List Expr} {c : Expr} {row : Row}
    (h : holds c row = .ok false) : allHold (before ++ c :: after) row ≠ .ok true := by
  rw [allHold_append]
  simp only [allHold, h]
  cases allHold before row with
  | error e => simp [bind, Except.bind]
  | ok b => cases b <;> simp [bind, Except.bind, pure, Except.pure]

theorem allHold_eq_true {cs : List Expr} {row : Row} :
    allHold cs row = .ok true ↔ ∀ c ∈ cs, holds c row = .ok true := by
  induction cs with
  | nil => simp [allHold]
  | cons c cs ih =>
    simp only [allHold, List.forall_mem_cons]
    cases holds c row with
    | error e => simp [bind, Except.bind]
    | ok b => cases b <;> simp [bind, Except.bind, pure, Except.pure, ih]

theorem evaluate_eq_error {e : Expr} {row : Row} {err : PyError} :
    evaluate e row = .error err ↔ holds e row = .error err := by
  simp only [holds]
  cases evaluate e row <;> simp [bind, Except.bind, pure, Except.pure]

theorem rebuildAnd_conjuncts (e : Expr) : ∃ e', rebuildAnd (conjuncts e) = some e' := by
  fun_induction conjuncts e with
  | case1 left right ihl ihr =>
    -- the conjuncts of the left side are not empty, so the rebuilt clause starts with one
    obtain ⟨l, hl⟩ := ihl
    cases hconj : conjuncts left with
    | nil => rw [hconj] at hl; cases hl
    | cons c cs => exact ⟨_, rfl⟩
  | case2 e _ => exact ⟨e, rfl⟩

/-- Splitting a clause into conjuncts is exact. Put together again they have its truth
    value and its errors, and the clause is true where one of them and the rest are. -/
theorem conjuncts_exact (e : Expr) (row : Row) :
    (∃ e', rebuildAnd (flattenAnd (some e)) = some e' ∧ holds e' row = holds e row ∧
      ∀ err, evaluate e' row = .error err ↔ evaluate e row = .error err) ∧
    ∀ i (hi : i < (flattenAnd (some e)).length),
      holds e row = .ok true ↔
        holds (flattenAnd (some e))[i] row = .ok true ∧
          ∀ rest, rebuildAnd ((flattenAnd (some e)).take i ++ (flattenAnd (some e)).drop (i + 1)) =
            some rest → holds rest row = .ok true := by
  refine ⟨?_, fun i hi => ?_⟩
  · obtain ⟨e', he'⟩ := rebuildAnd_conjuncts e
    have hholds : holds e' row = holds e row := by
      have hrebuilt := residualHolds_rebuildAnd (conjuncts e) row
      rwa [he', allHold_conjuncts] at hrebuilt
    refine ⟨e', he', hholds, fun err => ?_⟩
    rw [evaluate_eq_error, evaluate_eq_error, hholds]
  · change i < (conjuncts e).length at hi
    have hrest : (∀ rest, rebuildAnd ((conjuncts e).take i ++ (conjuncts e).drop (i + 1)) =
        some rest → holds rest row = .ok true) ↔
          ∀ c ∈ (conjuncts e).take i ++ (conjuncts e).drop (i + 1), holds c row = .ok true := by
      rw [← allHold_eq_true, ← residualHolds_rebuildAnd]
      cases rebuildAnd ((conjuncts e).take i ++ (conjuncts e).drop (i + 1)) with
      | none => simp [residualHolds]
      | some rest => simp [residualHolds]
    have hsplit : conjuncts e =
        (conjuncts e).take i ++ (conjuncts e)[i] :: (conjuncts e).drop (i + 1) := by
      rw [← List.drop_eq_getElem_cons, List.take_append_drop]
    rw [← allHold_conjuncts, allHold_eq_true]
    refine Iff.trans ?_ (and_congr_right fun _ => hrest.symm)
    conv_lhs => rw [hsplit]
    simp only [List.forall_mem_append, List.forall_mem_cons]
    tauto

theorem conjuncts_exact_two :
    holds (.binaryOp .and (.literal (.int 1)) (.literal (.int 2))) ([] : Row) = .ok true ↔
      holds (.literal (.int 2)) ([] : Row) = .ok true ∧
        ∀ rest, rebuildAnd [.literal (.int 1)] = some rest → holds rest ([] : Row) = .ok true :=
  (conjuncts_exact (.binaryOp .and (.literal (.int 1)) (.literal (.int 2))) ([] : Row)).2 1
    (by decide)

/-! ## Filters -/

/-- A row that a filter lets through. -/
def selects (residual : Option Expr) (row : Row) : Bool :=
  decide (residualHolds residual row = .ok true)

/-- A filter returns when its predicate raises on no row. -/
theorem filtered_eq_ok {residual : Option Expr} {rows rows' : List Row} :
    filtered residual rows = .ok rows' ↔
      (∀ row ∈ rows, ∃ b, residualHolds residual row = .ok b) ∧
        rows' = rows.filter (selects residual) := by
  cases residual with
  | none =>
    have hall : rows.filter (selects none) = rows :=
      List.filter_eq_self.mpr fun row _ => rfl
    simp [filtered, residualHolds, hall, eq_comm]
  | some e =>
    change filterRows e rows = .ok rows' ↔ _
    induction rows generalizing rows' with
    | nil => simp [filterRows, eq_comm]
    | cons row rows ih =>
      rw [filterRows, List.forall_mem_cons, List.filter_cons, selects]
      change (residualHolds (some e) row >>= _) = _ ↔ _
      cases hrow : residualHolds (some e) row with
      | error err => simp [bind, Except.bind]
      | ok b =>
        cases b with
        | false =>
          change filterRows e rows = .ok rows' ↔ _
          rw [ih]
          simp
        | true =>
          simp only [decide_true, if_true, Except.ok.injEq, exists_eq', true_and]
          change (filterRows e rows >>= fun rest => .ok (row :: rest)) = _ ↔ _
          rw [bind_eq_ok]
          constructor
          · rintro ⟨rest, hrest, heq⟩
            cases heq
            obtain ⟨hok, rfl⟩ := ih.mp hrest
            exact ⟨hok, rfl⟩
          · rintro ⟨hok, rfl⟩
            exact ⟨_, ih.mpr ⟨hok, rfl⟩, rfl⟩

/-! ## The pushed equality -/

theorem pushdown_eq_some {alias_ : String} {indexed : Dict String} {cs before after : List Expr}
    {c : Expr} {found : String × Value}
    (h : pushdown alias_ indexed cs = some (before, c, found, after)) :
    cs = before ++ c :: after ∧ matchingEquality c alias_ indexed = some found := by
  induction cs generalizing before with
  | nil => cases h
  | cons d cs ih =>
    unfold pushdown at h
    split at h
    · rename_i hd
      cases h
      exact ⟨rfl, hd⟩
    · obtain ⟨⟨before', rest⟩, hrec, heq⟩ := Option.map_eq_some_iff.mp h
      cases heq
      obtain ⟨rfl, hc⟩ := ih hrec
      exact ⟨rfl, hc⟩

theorem matchingPair_eq_some {alias_ : String} {indexed : Dict String} {sides : Expr × Expr}
    {found : String × Value} (h : matchingPair alias_ indexed sides = some found) :
    ∃ column, indexed.get? column = some found.1 := by
  unfold matchingPair at h
  split at h
  · split at h
    · cases h
    · obtain ⟨index, hindex, rfl⟩ := Option.map_eq_some_iff.mp h
      exact ⟨_, hindex⟩
  · cases h

/-- The planner looks up only indexes that the table has. -/
theorem matchingEquality_indexed {table : TableMeta} {alias_ : String} {c : Expr}
    {found : String × Value}
    (h : matchingEquality c alias_ (indexedColumns table) = some found) :
    ∃ idx, table.indexes.get? found.1 = some idx := by
  obtain ⟨column, hcolumn⟩ : ∃ column, (indexedColumns table).get? column = some found.1 := by
    unfold matchingEquality at h
    split at h
    · obtain h | ⟨-, h⟩ := Option.or_eq_some_iff.mp h
      · exact matchingPair_eq_some h
      · exact matchingPair_eq_some h
    · cases h
  rw [indexedColumns, Dict.get?_ofList] at hcolumn
  obtain ⟨x, hx, hname⟩ := Option.map_eq_some_iff.mp hcolumn
  have hmem := List.mem_reverse.mp (List.mem_of_find?_eq_some hx)
  obtain ⟨⟨name, idx⟩, hidx, rfl⟩ := List.mem_map.mp hmem
  obtain rfl : name = found.1 := hname
  exact Dict.get?_of_mem hidx

/-- What the lookup of a literal finds: the rows with an equal value, and for NULL, which
    leaves both ends of the range open, every row. -/
def finds (value v : Value) : Bool := decide (value = .none) || v.eq value

/-- Where the conjuncts before and after the pushed one are false, it does not matter what
    the lookup finds; anywhere else it must find the row exactly if the pushed conjunct
    holds. -/
theorem found_iff {before after : List Expr} {c : Expr} {row : Row} {b found : Bool}
    (hwhole : allHold (before ++ c :: after) row = .ok b) :
    ((found = true → ∃ b', allHold (before ++ after) row = .ok b') ∧
      (found = true ∧ allHold (before ++ after) row = .ok true ↔
        allHold (before ++ c :: after) row = .ok true)) ↔
    (holds c row ≠ .ok found → allHold (before ++ after) row = .ok false) := by
  cases hc : holds c row with
  | error e =>
    have hbefore : allHold before row = .ok false := by
      rw [allHold_append] at hwhole
      obtain ⟨b', hb', hrest⟩ := bind_eq_ok.mp hwhole
      cases b' with
      | false => exact hb'
      | true => simp [allHold, hc, bind, Except.bind] at hrest
    have hfalse : ∀ cs, allHold (before ++ cs) row = .ok false := fun cs => by
      rw [allHold_append, hbefore]
      rfl
    simp [hfalse]
  | ok v =>
    cases v with
    | true =>
      rw [allHold_drop hc] at hwhole ⊢
      cases found <;> cases b <;> simp [hwhole]
    | false =>
      have hne : allHold (before ++ c :: after) row ≠ .ok true := allHold_ne_true hc
      cases found with
      | false => simp [hne]
      | true =>
        cases hrest : allHold (before ++ after) row with
        | error e => simp
        | ok b' => cases b' <;> simp [hne]

/-! ## The rows of a table -/

section Scan
variable {π : Type} {C : Conversions} {mgr : TransactionManager π} {snapshot : Snapshot}
  {s s' : Pages} {schema : Schema} {alias_ : String} {chain : List (Nat × HeapPage Tuple)}

/-- The tuples of a heap that a snapshot sees. -/
def visible (mgr : TransactionManager π) (snapshot : Snapshot)
    (chain : List (Nat × HeapPage Tuple)) : List (RID × Tuple) :=
  (HeapFile.tuples chain).filter fun x => sees mgr snapshot x.2

/-- The row of a tuple that decodes. -/
def rowOf (alias_ : String) (schema : Schema) (x : RID × Tuple) : Row :=
  (rowFromTuple alias_ schema x.1 x.2).toOption.getD []

/-- A sequential scan returns the rows of the visible tuples, if they all decode. -/
theorem seqScan_eq_ok {heap : HeapFile} {rows : List Row}
    (hchain : HeapFile.Chain s heap.firstPageId chain)
    (h : seqScan mgr snapshot heap schema alias_ s = .ok rows s') :
    s' = s ∧ rows = (visible mgr snapshot chain).map (rowOf alias_ schema) ∧
      ∀ x ∈ visible mgr snapshot chain,
        rowFromTuple alias_ schema x.1 x.2 = .ok (rowOf alias_ schema x) := by
  obtain ⟨l, s₁, hscan, hlift⟩ := run_bind_eq_ok.mp h
  obtain ⟨rfl, chain', hchain', rfl⟩ := HeapFile.scan_eq_ok.mp hscan
  obtain rfl := hchain'.unique hchain
  obtain ⟨hmap, rfl⟩ := PageM.lift_eq_ok.mp hlift
  have hrows := mapM_eq_ok.mp hmap
  have hdecode : ∀ x ∈ visible mgr snapshot chain',
      rowFromTuple alias_ schema x.1 x.2 = .ok (rowOf alias_ schema x) := by
    intro x hx
    have hmem : rowFromTuple alias_ schema x.1 x.2 ∈ rows.map .ok :=
      hrows ▸ List.mem_map.mpr ⟨x, hx, rfl⟩
    obtain ⟨row, -, hrow⟩ := List.mem_map.mp hmem
    rw [rowOf, ← hrow]
    rfl
  refine ⟨rfl, ?_, hdecode⟩
  have hinj : Function.Injective (Except.ok : Row → Except PyError Row) := fun a b h => by
    cases h
    rfl
  refine hinj.list_map ?_
  rw [List.map_map, ← hrows]
  exact List.map_congr_left hdecode

/-! ## The rows an index leads to -/

/-- The tuple that stands under a RID. -/
def tupleAt (V : List (RID × Tuple)) (rid : RID) : Option (RID × Tuple) :=
  V.find? fun x => x.1 = rid

theorem tupleAt_eq_some {V : List (RID × Tuple)} (hV : (V.map (·.1)).Nodup) {rid : RID}
    {x : RID × Tuple} : tupleAt V rid = some x ↔ x ∈ V ∧ x.1 = rid := by
  constructor
  · intro h
    exact ⟨List.mem_of_find?_eq_some h, by simpa using List.find?_some h⟩
  · rintro ⟨hx, rfl⟩
    cases h : tupleAt V x.1 with
    | none => simpa using List.find?_eq_none.mp h x hx
    | some y =>
      have hy : y.1 = x.1 := by simpa using List.find?_some h
      rw [List.inj_on_of_nodup_map hV (List.mem_of_find?_eq_some h) hx hy]

/-- Entries of which exactly one refers to a tuple lead to it under the key of that entry. -/
theorem mem_filterMap_tupleAt {V : List (RID × Tuple)} (hV : (V.map (·.1)).Nodup)
    {es : List (RawKey × RID)} {p : RawKey × RID → Bool} {x : RID × Tuple} {k : RawKey} (hx : x ∈ V)
    (hone : es.filter (fun a => a.2 = x.1) = [(k, x.1)]) :
    x ∈ (es.filter p).filterMap (fun a => tupleAt V a.2) ↔ p (k, x.1) := by
  have hentry : ∀ a, a ∈ es ∧ a.2 = x.1 ↔ a = (k, x.1) := fun a => by
    have := congrArg (a ∈ ·) hone
    simpa using this
  simp only [List.mem_filterMap, List.mem_filter, tupleAt_eq_some hV]
  constructor
  · rintro ⟨a, ⟨hmem, hp⟩, -, heq⟩
    rwa [(hentry a).mp ⟨hmem, heq.symm⟩] at hp
  · intro hp
    exact ⟨_, ⟨((hentry _).mpr rfl).1, hp⟩, hx, rfl⟩

theorem filterMap_tupleAt_subset {V : List (RID × Tuple)} (hV : (V.map (·.1)).Nodup)
    {es : List (RawKey × RID)} {x : RID × Tuple} (hx : x ∈ es.filterMap fun a => tupleAt V a.2) : x ∈ V := by
  obtain ⟨a, -, hat⟩ := List.mem_filterMap.mp hx
  exact ((tupleAt_eq_some hV).mp hat).1

/-- Entries of which exactly one refers to each tuple lead to no tuple twice. -/
theorem nodup_filterMap_tupleAt {V : List (RID × Tuple)} (hV : (V.map (·.1)).Nodup)
    {es : List (RawKey × RID)}
    (hone : ∀ x ∈ V, ∃ k, es.filter (fun a => a.2 = x.1) = [(k, x.1)]) (p : RawKey × RID → Bool) :
    ((es.filter p).filterMap fun a => tupleAt V a.2).Nodup := by
  refine List.nodup_iff_count_le_one.mpr fun x => ?_
  by_cases hx : x ∈ (es.filter p).filterMap fun a => tupleAt V a.2
  · obtain ⟨k, hone⟩ := hone x (filterMap_tupleAt_subset hV hx)
    rw [List.count_filterMap, List.countP_filter]
    calc _ ≤ es.countP fun a => a.2 = x.1 := by
          refine List.countP_mono_left fun a _ h => ?_
          simp only [Bool.and_eq_true, beq_iff_eq, decide_eq_true_eq] at h ⊢
          exact ((tupleAt_eq_some hV).mp h.1).2.symm
      _ = 1 := by rw [List.countP_eq_length_filter, hone, List.length_singleton]
  · rw [List.count_eq_zero.mpr hx]
    exact Nat.zero_le 1

theorem fetchRows_eq {V : List (RID × Tuple)} {pairs : List (Value × RID)}
    (hget : ∀ a ∈ pairs, (HeapFile.get a.2 s = .ok none s ∧ tupleAt V a.2 = none) ∨
      ∃ raw, HeapFile.get a.2 s = .ok (some raw) s ∧
        tupleAt V a.2 = if sees mgr snapshot raw then some (a.2, raw) else none)
    (hrow : ∀ x ∈ V, rowFromTuple alias_ schema x.1 x.2 = .ok (rowOf alias_ schema x)) :
    fetchRows mgr snapshot schema alias_ pairs s =
      .ok ((pairs.filterMap fun a => tupleAt V a.2).map (rowOf alias_ schema)) s := by
  induction pairs with
  | nil => rfl
  | cons a pairs ih =>
    obtain ⟨value, rid⟩ := a
    rw [List.forall_mem_cons] at hget
    have ih := ih hget.2
    obtain ⟨hnone, hat⟩ | ⟨raw, hsome, hat⟩ := hget.1
    · rw [fetchRows, run_bind_ok hnone, List.filterMap_cons, hat]
      exact ih
    · rw [fetchRows, run_bind_ok hsome]
      dsimp only
      cases hsees : sees mgr snapshot raw with
      | false =>
        rw [hsees] at hat
        rw [List.filterMap_cons, hat]
        exact ih
      | true =>
        rw [hsees] at hat
        have hr : rowFromTuple alias_ schema rid raw = .ok (rowOf alias_ schema (rid, raw)) :=
          hrow (rid, raw) (List.mem_of_find?_eq_some hat)
        rw [List.filterMap_cons, hat, if_pos rfl, hr, PageM.lift_ok_bind, run_bind_ok ih]
        rfl

/-! ## Agreement -/

/-- An INT index that agrees with the heap of its table: every tuple has exactly one entry,
    under its value in the column, and an entry that stands for no tuple leads to a freed
    slot. `level` is the row of leaves of its tree, none of them on the page id that marks
    the end of a chain. -/
structure IndexAgrees (C : Conversions) (s : Pages) (table : TableMeta) (idx : IndexMeta)
    (chain : List (Nat × HeapPage Tuple)) (level : List (Item Nat RawKey)) : Prop where
  keyType : idx.keyType = .int
  tree : ∃ height, BPlusTree.Tree (.intColumn C) s height idx.rootPageId level
  leaves : invalidPageId ∉ Row.nodes level
  entry : ∀ x ∈ HeapFile.tuples chain, ∃ i, columnValue table.schema idx.column x.2 = .ok (.int i) ∧
    (BPlusTree.entries s level).filter (fun a => a.2 = x.1) = [(.int i, x.1)]
  freed : ∀ a ∈ BPlusTree.entries s level,
    (∀ raw, (a.2, raw) ∉ HeapFile.tuples chain) → HeapFile.get a.2 s = .ok none s

variable {table : TableMeta} {idx : IndexMeta} {level : List (Item Nat RawKey)} {first : Nat}

theorem nodup_visible (hchain : HeapFile.Chain s first chain) :
    ((visible mgr snapshot chain).map (·.1)).Nodup :=
  hchain.nodup_tuples.sublist (List.filter_sublist.map _)

/-- What a snapshot sees of a stored tuple. -/
theorem tupleAt_visible (hchain : HeapFile.Chain s first chain) {rid : RID} {raw : Tuple}
    (hraw : (rid, raw) ∈ HeapFile.tuples chain) :
    tupleAt (visible mgr snapshot chain) rid = if sees mgr snapshot raw then some (rid, raw) else none := by
  split
  · rename_i hsees
    exact (tupleAt_eq_some (nodup_visible hchain)).mpr ⟨List.mem_filter.mpr ⟨hraw, hsees⟩, rfl⟩
  · rename_i hsees
    cases hat : tupleAt (visible mgr snapshot chain) rid with
    | none => rfl
    | some x =>
      obtain ⟨hx, heq⟩ := (tupleAt_eq_some (nodup_visible hchain)).mp hat
      obtain ⟨hx, hs⟩ := List.mem_filter.mp hx
      obtain rfl : x = (rid, raw) := List.inj_on_of_nodup_map hchain.nodup_tuples hx hraw heq
      exact absurd hs hsees

/-- The tuples that some of the entries of an index lead to. -/
def reached (s : Pages) (level : List (Item Nat RawKey)) (V : List (RID × Tuple))
    (p : RawKey × RID → Bool) : List (RID × Tuple) :=
  ((BPlusTree.entries s level).filter p).filterMap fun a => tupleAt V a.2

namespace IndexAgrees

theorem mem_reached (ha : IndexAgrees C s table idx chain level)
    (hchain : HeapFile.Chain s first chain) {p : RawKey × RID → Bool} {x : RID × Tuple} {i : Int}
    (hx : x ∈ visible mgr snapshot chain)
    (hi : columnValue table.schema idx.column x.2 = .ok (.int i)) :
    x ∈ reached s level (visible mgr snapshot chain) p ↔ p (.int i, x.1) := by
  obtain ⟨j, hj, hone⟩ := ha.entry x (List.mem_of_mem_filter hx)
  obtain rfl : i = j := by simpa [hi] using hj
  exact mem_filterMap_tupleAt (nodup_visible hchain) hx hone

theorem reached_subset (hchain : HeapFile.Chain s first chain) {p : RawKey × RID → Bool}
    {x : RID × Tuple} (hx : x ∈ reached s level (visible mgr snapshot chain) p) :
    x ∈ visible mgr snapshot chain := filterMap_tupleAt_subset (nodup_visible hchain) hx

theorem nodup_reached (ha : IndexAgrees C s table idx chain level)
    (hchain : HeapFile.Chain s first chain) (p : RawKey × RID → Bool) :
    (reached s level (visible mgr snapshot chain) p).Nodup := by
  refine nodup_filterMap_tupleAt (nodup_visible hchain) (fun x hx => ?_) p
  obtain ⟨i, -, hone⟩ := ha.entry x (List.mem_of_mem_filter hx)
  exact ⟨_, hone⟩

/-- The loop of the index scan fetches the tuples that the entries lead to. -/
theorem fetchRows (ha : IndexAgrees C s table idx chain level)
    (hchain : HeapFile.Chain s first chain) (p : RawKey × RID → Bool)
    (hrow : ∀ x ∈ visible mgr snapshot chain,
      rowFromTuple alias_ schema x.1 x.2 = .ok (rowOf alias_ schema x)) :
    Minirel.fetchRows mgr snapshot schema alias_
        (((BPlusTree.entries s level).filter p).map (KeyOrder.intColumn C).dec) s =
      .ok ((reached s level (visible mgr snapshot chain) p).map (rowOf alias_ schema)) s := by
  rw [fetchRows_eq (V := visible mgr snapshot chain) ?_ hrow, List.filterMap_map]
  · rfl
  · intro b hb
    obtain ⟨a, hmem, rfl⟩ := List.mem_map.mp hb
    have hmem := List.mem_of_mem_filter hmem
    by_cases hraw : ∃ raw, (a.2, raw) ∈ HeapFile.tuples chain
    · obtain ⟨raw, hraw⟩ := hraw
      exact .inr ⟨raw, HeapFile.get_of_mem hchain hraw, tupleAt_visible hchain hraw⟩
    · push Not at hraw
      refine .inl ⟨ha.freed a hmem hraw, ?_⟩
      cases hat : tupleAt (visible mgr snapshot chain) a.2 with
      | none => exact hat
      | some x =>
        obtain ⟨hx, heq⟩ := (tupleAt_eq_some (nodup_visible hchain)).mp hat
        exact absurd (heq ▸ List.mem_of_mem_filter hx) (hraw x.2)

end IndexAgrees

/-! ## The two plans -/

theorem rowOf_rid {x : RID × Tuple}
    (h : rowFromTuple alias_ schema x.1 x.2 = .ok (rowOf alias_ schema x)) :
    (rowOf alias_ schema x).get? ridKey = some (.rid x.1) := rowFromTuple_rid h

/-- Two selections of tuples have the same rows, up to their order, if they select the same
    tuples. -/
theorem perm_rows_iff {V T : List (RID × Tuple)} {p q : RID × Tuple → Bool}
    (hV : (V.map (·.1)).Nodup) (hT : T.Nodup) (hsub : ∀ x ∈ T, x ∈ V)
    (hrow : ∀ x ∈ V, (rowOf alias_ schema x).get? ridKey = some (.rid x.1)) :
    ((((T.filter p).map (rowOf alias_ schema)).map (·.get? ridKey)).Perm
        (((V.filter q).map (rowOf alias_ schema)).map (·.get? ridKey))) ↔
      ∀ x ∈ V, (x ∈ T ∧ p x) ↔ q x := by
  have hkeys : ∀ l : List (RID × Tuple), (∀ x ∈ l, x ∈ V) →
      (l.map (rowOf alias_ schema)).map (·.get? ridKey) =
        l.map fun x => some (RowItem.rid x.1) := by
    intro l hl
    rw [List.map_map]
    exact List.map_congr_left fun x hx => hrow x (hl x hx)
  rw [hkeys _ fun x hx => hsub x (List.mem_of_mem_filter hx),
    hkeys _ fun x hx => List.mem_of_mem_filter hx]
  constructor
  · intro hperm x hx
    have hmem : ∀ l : List (RID × Tuple), (∀ y ∈ l, y ∈ V) →
        (some (RowItem.rid x.1) ∈ l.map (fun y => some (RowItem.rid y.1)) ↔ x ∈ l) := by
      intro l hl
      rw [List.mem_map]
      constructor
      · rintro ⟨y, hy, heq⟩
        obtain rfl := List.inj_on_of_nodup_map hV (hl y hy) hx (by simpa using heq)
        exact hy
      · exact fun hxl => ⟨x, hxl, rfl⟩
    have heq := hperm.mem_iff (a := some (RowItem.rid x.1))
    rw [hmem _ fun y hy => hsub y (List.mem_of_mem_filter hy),
      hmem _ fun y hy => List.mem_of_mem_filter hy, List.mem_filter, List.mem_filter] at heq
    simpa [hx] using heq
  · intro h
    refine List.Perm.map _ ((List.perm_ext_iff_of_nodup (hT.filter _)
      (hV.of_map.filter _)).mpr fun x => ?_)
    rw [List.mem_filter, List.mem_filter]
    constructor
    · rintro ⟨hx, hp⟩
      exact ⟨hsub x hx, (h x (hsub x hx)).mp ⟨hx, hp⟩⟩
    · rintro ⟨hx, hq⟩
      exact (h x hx).mpr hq

theorem comparable_bound {value : Value} (hvalue : value = .none ∨ value.IsNumber) :
    ∀ k ∈ bound value, (KeyOrder.intColumn C).Comparable k := by
  obtain rfl | hnum := hvalue
  · intro k hk
    cases hk
  · intro k hk
    cases value <;> cases hk <;> exact hnum

/-- The range from a literal to itself, on the keys that it can be compared with. -/
theorem within_bound {value : Value} {a : RawKey × RID} (hst : (KeyOrder.intColumn C).Stored a.1)
    (hvalue : value = .none ∨ value.IsNumber) :
    BPlusTree.within (KeyOrder.intColumn C) (bound value) (bound value) a =
      finds value ((KeyOrder.intColumn C).val a.1) := by
  have hval := (KeyOrder.intColumn C).comparable_val hst
  obtain rfl | hnum := hvalue
  · rfl
  · have hne : value ≠ .none := by
      rintro rfl
      obtain ⟨x, r, hx, -⟩ := hnum
      cases hx
    have hb : bound value = some value := by cases value <;> first | rfl | exact absurd rfl hne
    rw [hb, finds, Value.eq_eq hval hnum, BPlusTree.within]
    simp only [Option.all_some, hne, decide_false, Bool.false_or]
    rw [← Bool.decide_and, decide_eq_decide, and_comm]
    exact le_antisymm_iff.symm

/-- The scan for a literal that the keys can be compared with. -/
theorem IndexAgrees.rangeScan (ha : IndexAgrees C s table idx chain level) {value : Value}
    (hvalue : value = .none ∨ value.IsNumber) :
    BPlusTree.rangeScan (.ofColumn C idx.keyType) idx.rootPageId (bound value) (bound value) s =
      .ok (((BPlusTree.entries s level).filter fun a =>
        finds value ((KeyOrder.intColumn C).val a.1)).map (KeyOrder.intColumn C).dec) s := by
  obtain ⟨height, ht⟩ := ha.tree
  rw [ha.keyType, ht.rangeScan_eq ha.leaves (comparable_bound hvalue) (comparable_bound hvalue)]
  congr 2
  exact List.filter_congr fun a hmem => within_bound (ht.stored a hmem) hvalue

/-- The pushed equality loses nothing and finds nothing else: its literal is no text, unless
    there is no key to compare the text with, and on every visible row on which the lookup
    and the pushed conjunct differ the other conjuncts are false. -/
def PushdownExact (C : Conversions) (mgr : TransactionManager π) (snapshot : Snapshot)
    (table : TableMeta) (alias_ : String) (where_ : Option Expr) (s : Pages)
    (chain : List (Nat × HeapPage Tuple)) : Prop :=
  ∀ before c name value after idx,
    pushdown alias_ (indexedColumns table) (flattenAnd where_) =
      some (before, c, (name, value), after) →
    table.indexes.get? name = some idx →
    (∀ text, value = .str text →
      BPlusTree.rangeScan (.ofColumn C .int) idx.rootPageId none none s = .ok [] s) ∧
    ∀ x ∈ visible mgr snapshot chain, ∀ v, columnValue table.schema idx.column x.2 = .ok v →
      holds c (rowOf alias_ table.schema x) ≠ .ok (finds value v) →
      allHold (before ++ after) (rowOf alias_ table.schema x) = .ok false

theorem pushdownExact_iff {where_ : Option Expr} {before after : List Expr} {c : Expr}
    {name : String} {value : Value}
    (hpush : pushdown alias_ (indexedColumns table) (flattenAnd where_) =
      some (before, c, (name, value), after)) (hidx : table.indexes.get? name = some idx) :
    PushdownExact C mgr snapshot table alias_ where_ s chain ↔
    (∀ text, value = .str text →
      BPlusTree.rangeScan (.ofColumn C .int) idx.rootPageId none none s = .ok [] s) ∧
    ∀ x ∈ visible mgr snapshot chain, ∀ v, columnValue table.schema idx.column x.2 = .ok v →
      holds c (rowOf alias_ table.schema x) ≠ .ok (finds value v) →
      allHold (before ++ after) (rowOf alias_ table.schema x) = .ok false := by
  constructor
  · intro h
    exact h _ _ _ _ _ _ hpush hidx
  · intro h before' c' name' value' after' idx' hpush' hidx'
    rw [hpush] at hpush'
    cases hpush'
    rw [hidx] at hidx'
    cases hidx'
    exact h

/-- What is left of the WHERE clause, on the tuples that the index leads to. -/
theorem IndexAgrees.filtered_iff (ha : IndexAgrees C s table idx chain level)
    (hchain : HeapFile.Chain s first chain) {before after : List Expr} {c : Expr}
    {where_ : Option Expr} {rows : List Row} {value : Value}
    (hwhere : flattenAnd where_ = before ++ c :: after)
    (hrow : ∀ x ∈ visible mgr snapshot chain,
      rowFromTuple alias_ schema x.1 x.2 = .ok (rowOf alias_ schema x))
    (hseq : filtered where_ ((visible mgr snapshot chain).map (rowOf alias_ schema)) = .ok rows) :
    (∃ rows', filtered (rebuildAnd (before ++ after))
        ((reached s level (visible mgr snapshot chain) fun a =>
          finds value ((KeyOrder.intColumn C).val a.1)).map (rowOf alias_ schema)) = .ok rows' ∧
      (rows'.map (·.get? ridKey)).Perm (rows.map (·.get? ridKey))) ↔
    ∀ x ∈ visible mgr snapshot chain, ∀ v, columnValue table.schema idx.column x.2 = .ok v →
      holds c (rowOf alias_ schema x) ≠ .ok (finds value v) →
      allHold (before ++ after) (rowOf alias_ schema x) = .ok false := by
  obtain ⟨hok, rfl⟩ := filtered_eq_ok.mp hseq
  simp only [List.forall_mem_map, residualHolds_eq, hwhere] at hok
  simp only [filtered_eq_ok, residualHolds_rebuildAnd, List.forall_mem_map, and_assoc,
    exists_and_left, exists_eq_left, List.filter_map]
  rw [perm_rows_iff (nodup_visible hchain) (ha.nodup_reached hchain _)
    (fun x hx => IndexAgrees.reached_subset hchain hx) fun x hx => rowOf_rid (hrow x hx)]
  simp only [Function.comp_apply, selects, decide_eq_true_eq, residualHolds_rebuildAnd]
  simp only [residualHolds_eq, hwhere]
  -- tuple by tuple, with the value under which the index has it
  have htuple : ∀ x ∈ visible mgr snapshot chain, ∃ i,
      columnValue table.schema idx.column x.2 = .ok (.int i) ∧
      (x ∈ reached s level (visible mgr snapshot chain)
        (fun a => finds value ((KeyOrder.intColumn C).val a.1)) ↔ finds value (.int i) = true) := by
    intro x hx
    obtain ⟨i, hi, -⟩ := ha.entry x (List.mem_of_mem_filter hx)
    exact ⟨i, hi, ha.mem_reached hchain hx hi⟩
  constructor
  · rintro ⟨hrest, hsame⟩ x hx v hv
    obtain ⟨i, hi, hmem⟩ := htuple x hx
    obtain rfl : Value.int i = v := by simpa [hi] using hv
    obtain ⟨b, hb⟩ := hok x hx
    have hsame := hsame x hx
    rw [hmem] at hsame
    exact (found_iff hb).mp ⟨fun hf => hrest x (hmem.mpr hf), hsame⟩
  · intro h
    refine ⟨fun x hx => ?_, fun x hx => ?_⟩
    · have hxV := IndexAgrees.reached_subset hchain hx
      obtain ⟨i, hi, hmem⟩ := htuple x hxV
      obtain ⟨b, hb⟩ := hok x hxV
      exact ((found_iff hb).mpr (h x hxV _ hi)).1 (hmem.mp hx)
    · obtain ⟨i, hi, hmem⟩ := htuple x hx
      obtain ⟨b, hb⟩ := hok x hx
      rw [hmem]
      exact ((found_iff hb).mpr (h x hx _ hi)).2

/-- A literal text raises in the first comparison with a key. -/
theorem IndexAgrees.rangeScan_text (ha : IndexAgrees C s table idx chain level) (text : String)
    (stop : Option Value) :
    (BPlusTree.entries s level = [] ∧ BPlusTree.rangeScan (.ofColumn C idx.keyType)
        idx.rootPageId (some (.str text)) stop s = .ok [] s) ∨
    (BPlusTree.entries s level ≠ [] ∧ BPlusTree.rangeScan (.ofColumn C idx.keyType)
        idx.rootPageId (some (.str text)) stop s = .error .typeError s) := by
  obtain ⟨height, ht⟩ := ha.tree
  rw [ha.keyType]
  refine ht.rangeScan_raises ha.leaves ?_
  rintro k ⟨i, rfl, -⟩
  exact ⟨rfl, rfl⟩

/-- The rows of the plan are those of a sequential scan under the whole WHERE clause, as a
    multiset of RIDs, exactly if the pushed equality loses nothing and finds nothing else.
    The lexer makes no NaN. -/
theorem rowSource_perm_iff {where_ : Option Expr} {rows : List Row}
    (hchain : HeapFile.Chain s table.heapFirstPageId chain)
    (hagree : ∀ idx value residual,
      buildBaseScan table alias_ where_ = .ok (.index idx value residual) →
        value ≠ .float .nan ∧ ∃ level, IndexAgrees C s table idx chain level)
    (hseq : seqSource mgr snapshot table alias_ where_ s = .ok rows s) :
    (∃ rows', rowSource C mgr snapshot table alias_ where_ s = .ok rows' s ∧
      (rows'.map (·.get? ridKey)).Perm (rows.map (·.get? ridKey))) ↔
    PushdownExact C mgr snapshot table alias_ where_ s chain := by
  obtain ⟨heap, s₁, hopen, hseq⟩ := run_bind_eq_ok.mp hseq
  obtain ⟨rfl, hfirst⟩ := HeapFile.openAt_eq_ok hopen
  cases hpush : pushdown alias_ (indexedColumns table) (flattenAnd where_) with
  | none =>
    have hplan : rowSource C mgr snapshot table alias_ where_ s₁ = .ok rows s₁ := by
      rw [rowSource, run_bind_ok hopen, buildBaseScan, hpush]
      exact hseq
    refine iff_of_true ⟨rows, hplan, List.Perm.refl _⟩ ?_
    intro before c name value after idx h
    rw [hpush] at h
    cases h
  | some found =>
    obtain ⟨before, c, ⟨name, value⟩, after⟩ := found
    obtain ⟨hwhere, hmatch⟩ := pushdown_eq_some hpush
    obtain ⟨idx, hidx⟩ := matchingEquality_indexed hmatch
    have hbase : buildBaseScan table alias_ where_ =
        .ok (.index idx value (rebuildAnd (before ++ after))) := by
      simp only [buildBaseScan, hpush, hidx]
    obtain ⟨hnan, level, ha⟩ := hagree _ _ _ hbase
    obtain ⟨scanned, s₂, hscan, hfilter⟩ := run_bind_eq_ok.mp hseq
    obtain ⟨rfl, rfl, hrow⟩ := seqScan_eq_ok (hfirst ▸ hchain) hscan
    obtain ⟨hfilter, -⟩ := PageM.lift_eq_ok.mp hfilter
    rw [pushdownExact_iff hpush hidx, ← ha.filtered_iff hchain hwhere hrow hfilter]
    have hplan : rowSource C mgr snapshot table alias_ where_ s₂ =
        (do let pairs ← BPlusTree.rangeScan (.ofColumn C idx.keyType) idx.rootPageId
              (bound value) (bound value)
            let rows ← fetchRows mgr snapshot table.schema alias_ pairs
            PageM.lift (filtered (rebuildAnd (before ++ after)) rows) : PagesM (List Row)) s₂ := by
      rw [rowSource, run_bind_ok hopen, hbase, PageM.lift_ok_bind]
      dsimp only [indexScan]
      rw [bind_assoc]
    rw [hplan]
    by_cases htext : ∃ text, value = .str text
    · obtain ⟨text, rfl⟩ := htext
      have hbound : bound (.str text) = some (.str text) := rfl
      have hall := ha.rangeScan (.inl rfl)
      have hfilter : (BPlusTree.entries s₂ level).filter (fun a =>
          finds .none ((KeyOrder.intColumn C).val a.1)) = BPlusTree.entries s₂ level :=
        List.filter_eq_self.mpr fun _ _ => rfl
      rw [hfilter, ha.keyType] at hall
      obtain ⟨hnil, hrun⟩ | ⟨hne, hrun⟩ := ha.rangeScan_text text (some (.str text))
      · have hreached : ∀ p, reached s₂ level (visible mgr snapshot chain) p = [] := fun p => by
          simp [reached, hnil]
        rw [hnil] at hall
        have hscan : ∀ text', Value.str text = .str text' → BPlusTree.rangeScan (.ofColumn C .int)
            idx.rootPageId none none s₂ = .ok [] s₂ := fun _ _ => hall
        rw [hreached, hbound, run_bind_ok hrun, fetchRows, pure_bind, and_iff_right hscan]
        simp only [PageM.lift_eq_ok, and_true, List.map_nil]
      · refine iff_of_false ?_ ?_
        · rintro ⟨rows', hrows', -⟩
          rw [hbound, run_bind_error hrun] at hrows'
          cases hrows'
        · rintro ⟨hempty, -⟩
          have hscan := (hempty text rfl).symm.trans hall
          cases hentries : BPlusTree.entries s₂ level with
          | nil => exact hne hentries
          | cons a l =>
            rw [hentries] at hscan
            cases hscan
    · have hvalue := value.none_or_number hnan htext
      have hscan : ∀ text, value = .str text → BPlusTree.rangeScan (.ofColumn C .int)
          idx.rootPageId none none s₂ = .ok [] s₂ := fun text h => absurd ⟨text, h⟩ htext
      rw [run_bind_ok (ha.rangeScan hvalue), run_bind_ok (ha.fetchRows hchain _ hrow),
        and_iff_right hscan]
      simp only [PageM.lift_eq_ok, and_true]

end Scan

/-! ## A table with one row -/

namespace OneRow

def index : IndexMeta := ⟨"i", "a", 1, false, .int⟩

def table : TableMeta := ⟨"t", ⟨[⟨"a", .int⟩]⟩, 0, [("i", index)]⟩

def tuple : Tuple := ⟨1, infinityTxn, [.int 1 (by decide)], by decide, by decide⟩

def heapPage : HeapPage Tuple := ⟨[some tuple], pageSize - tuple.size, invalidPageId⟩

def pages : Pages := [.heap heapPage, .leaf [(.int 1, ⟨0, 0⟩)] invalidPageId]

def mgr : TransactionManager Unit := .init ⟨[], 0⟩ 3 ∅

/-- `WHERE a = value`. -/
def where_ (value : Value) : Option Expr :=
  some (.binaryOp .eq (.columnRef "a" none) (.literal value))

theorem chain_pages : HeapFile.Chain pages table.heapFirstPageId [(0, heapPage)] :=
  ⟨rfl, by decide, rfl, rfl⟩

theorem indexAgrees_pages :
    ∃ level, IndexAgrees .integral pages table index [(0, heapPage)] level := by
  have hstored : (KeyOrder.intColumn .integral).Stored (.int 1) := ⟨1, rfl, by decide, by decide⟩
  have hpage : pages[index.rootPageId]? = some (.leaf [(.int 1, ⟨0, 0⟩)] invalidPageId) := rfl
  obtain ⟨ht, hentries⟩ := BPlusTree.tree_leaf (O := KeyOrder.intColumn .integral) hpage
    ⟨by simpa using hstored, by decide, by decide⟩ (by decide) (List.pairwise_singleton _ _)
  refine ⟨_, rfl, ⟨_, ht⟩, by decide, ?_, ?_⟩
  · rw [hentries]
    intro x hx
    obtain rfl : x = (⟨0, 0⟩, tuple) := List.mem_singleton.mp hx
    exact ⟨1, rfl, by decide⟩
  · rw [hentries]
    intro a ha hnone
    obtain rfl : a = (.int 1, ⟨0, 0⟩) := List.mem_singleton.mp ha
    exact absurd (List.mem_singleton.mpr rfl) (hnone tuple)

/-- The row that `a = 1` selects. -/
def row : Row := rowOf "t" table.schema (⟨0, 0⟩, tuple)

/-- On this table the plan for `a = 1` is exact. -/
theorem rowSource_perm_iff_one :
    (∃ rows', rowSource .integral mgr ⟨2, ∅⟩ table "t" (where_ (.int 1)) pages = .ok rows' pages ∧
      (rows'.map (·.get? ridKey)).Perm ([row].map (·.get? ridKey))) ↔
    PushdownExact .integral mgr ⟨2, ∅⟩ table "t" (where_ (.int 1)) pages [(0, heapPage)] := by
  refine rowSource_perm_iff chain_pages (fun idx value residual h => ?_) rfl
  cases h
  exact ⟨by decide, indexAgrees_pages⟩

/-- `a = NULL` is true of no row, and the index returns every row for it. -/
theorem not_rowSource_null :
    (∃ level, IndexAgrees .integral pages table index [(0, heapPage)] level) ∧
    seqSource mgr ⟨2, ∅⟩ table "t" (where_ .none) pages = .ok [] pages ∧
    ¬∃ rows', rowSource .integral mgr ⟨2, ∅⟩ table "t" (where_ .none) pages = .ok rows' pages ∧
      (rows'.map (·.get? ridKey)).Perm [] := by
  refine ⟨indexAgrees_pages, rfl, ?_⟩
  rintro ⟨rows', hrows, hperm⟩
  have hrun : rowSource .integral mgr ⟨2, ∅⟩ table "t" (where_ .none) pages = .ok [row] pages := rfl
  rw [hrun] at hrows
  cases hrows
  cases hperm.eq_nil

end OneRow

end Minirel

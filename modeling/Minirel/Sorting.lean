-- SUMMARY: ORDER BY is a stable sort by the lexicographic order of its keys.
import Minirel.OperatorTrees
import Minirel.Lib.StableSort

/-!
# ORDER BY

`SortOperator` sorts once for each key, the last one first. `list.sort` compares keys with
`<` and leaves those that tie as they are, also in reverse; it raises when two keys do not
compare.
-/

namespace Minirel

variable {item : OrderByItem} {items : List OrderByItem} {rows : List Row}

/-! ## The operator -/

/-- Whether a key may stay before another in the sorted list. -/
def mayPrecede (descending : Bool) (k k' : RowItem) : Prop :=
  (if descending then RowItem.order Value.lt k k' else RowItem.order Value.lt k' k) ≠ .ok true

instance (descending : Bool) (k k' : RowItem) : Decidable (mayPrecede descending k k') :=
  inferInstanceAs (Decidable (_ ≠ _))

/-- `list.sort` on rows with their keys. -/
def listSort (descending : Bool) (keyed : List (RowItem × Row)) :
    Except PyError (List (RowItem × Row)) :=
  if keyed.Pairwise fun x y => (RowItem.order Value.lt x.1 y.1).isOk then
    .ok (keyed.insertionSort fun x y => mayPrecede descending x.1 y.1)
  else .error .typeError

/-- One pass of `SortOperator.open`. -/
def sortPass (item : OrderByItem) (rows : List Row) : Except PyError (List Row) := do
  let keyed ← rows.mapM fun row => do return (← evaluate item.expr row, row)
  return (← listSort item.descending keyed).map (·.2)

/-- The passes of `SortOperator.open`. -/
def sortRows (orderBy : List OrderByItem) (rows : List Row) : Except PyError (List Row) :=
  orderBy.reverse.foldlM (fun rows item => sortPass item rows) rows

/-- `SortOperator`. -/
def Operator.sort (child : Operator) (orderBy : List OrderByItem) : Operator :=
  child.materialize (fun rows row => .ok (rows ++ [row])) [] (sortRows orderBy)

/-! ## The order of the keys -/

/-- The key of a row. -/
def sortKey (item : OrderByItem) (row : Row) : RowItem :=
  (evaluate item.expr row).toOption.getD (.value .none)

/-- The order of one key, in its own direction. -/
def keyOrder (item : OrderByItem) (a b : Row) : Prop :=
  mayPrecede item.descending (sortKey item a) (sortKey item b)

instance (item : OrderByItem) : DecidableRel (keyOrder item) := fun _ _ =>
  inferInstanceAs (Decidable (mayPrecede _ _ _))

/-- The lexicographic order of several keys. -/
def rowOrder : List OrderByItem → Row → Row → Prop
  | [] => fun _ _ => True
  | item :: items => Lex (keyOrder item) (rowOrder items)

instance decidableRowOrder : (items : List OrderByItem) → DecidableRel (rowOrder items)
  | [] => fun _ _ => inferInstanceAs (Decidable True)
  | item :: items =>
    have := decidableRowOrder items
    inferInstanceAs (DecidableRel (Lex (keyOrder item) (rowOrder items)))

/-- The key evaluates on all rows, and the values compare and are in a total order. -/
structure Comparable (item : OrderByItem) (rows : List Row) : Prop where
  evaluates : ∀ row ∈ rows, ∃ key, evaluate item.expr row = .ok key
  compare : ∀ a ∈ rows, ∀ b ∈ rows,
    ∃ t, RowItem.order Value.lt (sortKey item a) (sortKey item b) = .ok t
  ordered : TotalOn (fun a b => RowItem.order Value.lt (sortKey item b) (sortKey item a) = .ok false) rows

theorem Comparable.keyOrder_iff (h : Comparable item rows) {a b : Row} (ha : a ∈ rows) (hb : b ∈ rows) :
    keyOrder item a b ↔
      (if item.descending then RowItem.order Value.lt (sortKey item a) (sortKey item b)
        else RowItem.order Value.lt (sortKey item b) (sortKey item a)) = .ok false := by
  have hbool : ∀ {x : Except PyError Bool}, (∃ t, x = .ok t) → (x ≠ .ok true ↔ x = .ok false) := by
    rintro _ ⟨t, rfl⟩
    cases t <;> simp
  refine hbool ?_
  split
  · exact h.compare a ha b hb
  · exact h.compare b hb a ha

theorem Comparable.totalOn (h : Comparable item rows) : TotalOn (keyOrder item) rows := by
  constructor
  case total =>
    intro a ha b hb
    rw [h.keyOrder_iff ha hb, h.keyOrder_iff hb ha]
    split
    · exact h.ordered.total b hb a ha
    · exact h.ordered.total a ha b hb
  case trans =>
    intro a ha b hb c hc
    rw [h.keyOrder_iff ha hb, h.keyOrder_iff hb hc, h.keyOrder_iff ha hc]
    split
    · exact fun hab hbc => h.ordered.trans c hc b hb a ha hbc hab
    · exact h.ordered.trans a ha b hb c hc

theorem Comparable.perm {rows' : List Row} (h : Comparable item rows) (hperm : rows'.Perm rows) :
    Comparable item rows' where
  evaluates row hrow := h.evaluates row (hperm.mem_iff.mp hrow)
  compare a ha b hb := h.compare a (hperm.mem_iff.mp ha) b (hperm.mem_iff.mp hb)
  ordered := h.ordered.perm hperm

/-- Keys that compare as their places in a linear order do. -/
theorem Comparable.of_rank {γ : Type} [LinearOrder γ] (rank : RowItem → γ)
    (heval : ∀ row ∈ rows, ∃ key, evaluate item.expr row = .ok key)
    (hlt : ∀ a ∈ rows, ∀ b ∈ rows, RowItem.order Value.lt (sortKey item a) (sortKey item b) =
      .ok (decide (rank (sortKey item a) < rank (sortKey item b)))) : Comparable item rows where
  evaluates := heval
  compare a ha b hb := ⟨_, hlt a ha b hb⟩
  ordered := by
    constructor
    case total =>
      intro a ha b hb
      rw [hlt a ha b hb, hlt b hb a ha]
      simpa using le_total _ _
    case trans =>
      intro a ha b hb c hc
      rw [hlt b hb a ha, hlt c hc b hb, hlt c hc a ha]
      simpa using fun hab hbc => le_trans hab hbc

/-- Where a number stands among the numbers. -/
def RowItem.rank : RowItem → Extended
  | .value v => v.rank
  | .rid _ => ⊥

/-- The text of an item that is one. -/
def RowItem.text : RowItem → String
  | .value (.str text) => text
  | _ => ""

/-- Numbers other than NaN. -/
theorem Comparable.of_numbers
    (h : ∀ row ∈ rows, ∃ v, evaluate item.expr row = .ok (.value v) ∧ v.IsNumber) :
    Comparable item rows := by
  have hkey : ∀ row ∈ rows, ∃ v, sortKey item row = .value v ∧ v.IsNumber := by
    intro row hrow
    obtain ⟨v, hv, hnumber⟩ := h row hrow
    exact ⟨v, by rw [sortKey, hv]; rfl, hnumber⟩
  refine .of_rank RowItem.rank (fun row hrow => ?_) fun a ha b hb => ?_
  · obtain ⟨v, hv, -⟩ := h row hrow
    exact ⟨_, hv⟩
  obtain ⟨v, hv, hnv⟩ := hkey a ha
  obtain ⟨w, hw, hnw⟩ := hkey b hb
  rw [hv, hw]
  exact Value.lt_eq hnv hnw

theorem Comparable.of_texts
    (h : ∀ row ∈ rows, ∃ text, evaluate item.expr row = .ok (.value (.str text))) :
    Comparable item rows := by
  have hkey : ∀ row ∈ rows, ∃ text, sortKey item row = .value (.str text) := by
    intro row hrow
    obtain ⟨text, htext⟩ := h row hrow
    exact ⟨text, by rw [sortKey, htext]; rfl⟩
  refine .of_rank RowItem.text (fun row hrow => ?_) fun a ha b hb => ?_
  · obtain ⟨text, htext⟩ := h row hrow
    exact ⟨_, htext⟩
  obtain ⟨v, hv⟩ := hkey a ha
  obtain ⟨w, hw⟩ := hkey b hb
  rw [hv, hw]
  rfl

/-! ## The passes -/

theorem Comparable.evaluate_eq (h : Comparable item rows) {row : Row} (hrow : row ∈ rows) :
    evaluate item.expr row = .ok (sortKey item row) := by
  obtain ⟨key, hkey⟩ := h.evaluates row hrow
  rw [sortKey, hkey]
  rfl

theorem sortPass_eq (h : Comparable item rows) :
    sortPass item rows = .ok (rows.insertionSort (keyOrder item)) := by
  let keyed := rows.map fun row => (sortKey item row, row)
  have hkeyed : (rows.mapM fun row => do return (← evaluate item.expr row, row)) = .ok keyed := by
    refine mapM_eq_ok.mpr ?_
    rw [List.map_map]
    refine List.map_congr_left fun row hrow => ?_
    rw [h.evaluate_eq hrow]
    rfl
  have hcompare : keyed.Pairwise fun x y => (RowItem.order Value.lt x.1 y.1).isOk := by
    refine List.pairwise_map.mpr (List.Pairwise.imp_of_mem (fun {a b} ha hb _ => ?_)
      (List.pairwise_of_forall fun _ _ => trivial))
    obtain ⟨t, ht⟩ := h.compare a ha b hb
    rw [ht]
    rfl
  have hsort : keyed.insertionSort (fun x y => mayPrecede item.descending x.1 y.1) =
      (rows.insertionSort (keyOrder item)).map fun row => (sortKey item row, row) :=
    (List.map_insertionSort (keyOrder item)
      (fun x y : RowItem × Row => mayPrecede item.descending x.1 y.1)
      (fun row => (sortKey item row, row)) rows fun _ _ _ _ => .rfl).symm
  rw [sortPass, hkeyed]
  simp only [bind, Except.bind, listSort, if_pos hcompare, hsort, pure, Except.pure, List.map_map,
    Function.comp_def, List.map_id']

theorem sortRows_cons (item : OrderByItem) (items : List OrderByItem) (rows : List Row) :
    sortRows (item :: items) rows = sortRows items rows >>= sortPass item := by
  rw [sortRows, List.reverse_cons, List.foldlM_append]
  simp only [List.foldlM_cons, List.foldlM_nil, bind_pure, sortRows]

/-- The passes so far have made a stable sort by the keys so far. -/
theorem isStableSort_sortRows (h : ∀ item ∈ items, Comparable item rows) :
    ∃ out, sortRows items rows = .ok out ∧ IsStableSort (rowOrder items) rows out := by
  induction items with
  | nil => exact ⟨rows, rfl, isStableSort_refl rows⟩
  | cons item items ih =>
    obtain ⟨ys, hys, hsorted⟩ := ih fun x hx => h x (List.mem_cons_of_mem _ hx)
    have hitem : Comparable item ys := (h item List.mem_cons_self).perm hsorted.perm
    refine ⟨ys.insertionSort (keyOrder item), ?_, ?_⟩
    · rw [sortRows_cons, hys]
      exact sortPass_eq hitem
    · exact hsorted.lex (isStableSort_insertionSort hitem.totalOn) hitem.totalOn

theorem tied_rowOrder_iff {a b : Row} :
    Tied (rowOrder items) a b ↔ ∀ item ∈ items, Tied (keyOrder item) a b := by
  induction items with
  | nil => simp [rowOrder, Tied]
  | cons item items ih => rw [rowOrder, tied_lex_iff, ih, List.forall_mem_cons]

/-! ## The rows that come out -/

theorem takenIn_eq (rows taken : List Row) :
    rows.foldlM (fun (rows : List Row) row => (.ok (rows ++ [row]) : Except PyError (List Row))) taken =
      .ok (taken ++ rows) := by
  induction rows generalizing taken with
  | nil => rw [List.append_nil]; rfl
  | cons row rows ih =>
    rw [List.foldlM_cons]
    change List.foldlM _ (taken ++ [row]) rows = _
    rw [ih, List.append_assoc, List.singleton_append]

/-- Over an operator that yields `rows`, whose keys compare, a `SortOperator` emits a permutation
    of the rows, in the lexicographic order of the keys, and leaves rows that tie on every key
    in their order. -/
theorem Operator.drain_sort {child : Operator} {orderBy : List OrderByItem}
    (hopens : child.Opens (fun _ => False) rows) (hcloses : child.Closes)
    (hkeys : ∀ item ∈ orderBy, Comparable item rows) (s : (child.sort orderBy).State) :
    ∃ out, out.Perm rows ∧ out.Pairwise (rowOrder orderBy) ∧
      (∀ a ∈ rows, out.filter (fun b => ∀ item ∈ orderBy, Tied (keyOrder item) a b) =
        rows.filter fun b => ∀ item ∈ orderBy, Tied (keyOrder item) a b) ∧
      (∃ n s', ∀ fuel ≥ n, (child.sort orderBy).drain fuel s = .ok out s') ∧
      ∀ fuel found s', (child.sort orderBy).drain fuel s = .ok found s' → found = out := by
  obtain ⟨out, hout, hsorted⟩ := isStableSort_sortRows hkeys
  have hmade : (rows.foldlM (fun (rows : List Row) row =>
      (.ok (rows ++ [row]) : Except PyError (List Row))) [] >>= sortRows orderBy) = .ok out := by
    rw [takenIn_eq, List.nil_append]
    exact hout
  have hready : (child.sort orderBy).Opens (fun _ => False) out :=
    hopens.materialize (by simp [hmade]) (by simp [hmade])
  refine ⟨out, hsorted.perm, hsorted.sorted, fun a ha => ?_,
    (hready.drain (hcloses.materialize _ _ _) s).returns⟩
  have hstable := hsorted.stable a ha
  simp only [tied_rowOrder_iff] at hstable
  exact hstable

/-- Two keys, the first one descending. -/
theorem Operator.drain_sort_two :
    let rows : List Row := [[("a", .value (.int 1)), ("b", .value (.int 2))],
      [("a", .value (.int 2)), ("b", .value (.int 2))], [("a", .value (.int 2)), ("b", .value (.int 1))]]
    let orderBy : List OrderByItem := [⟨.columnRef "a" none, true⟩, ⟨.columnRef "b" none, false⟩]
    ∃ out : List Row, out.Perm rows ∧ out.Pairwise (rowOrder orderBy) := by
  intro rows orderBy
  have hkeys : ∀ item ∈ orderBy, Comparable item rows := by
    intro item hitem
    refine .of_numbers fun row hrow => ?_
    simp only [orderBy, rows, List.mem_cons, List.not_mem_nil, or_false] at hitem hrow
    obtain rfl | rfl := hitem <;> obtain rfl | rfl | rfl := hrow <;>
      exact ⟨_, rfl, Value.isNumber_int _⟩
  obtain ⟨out, hperm, hsorted, -⟩ :=
    Operator.drain_sort (Operator.opens_leaf rows) (Operator.closes_leaf rows) hkeys ⟨none, none, 0⟩
  exact ⟨out, hperm, hsorted⟩

end Minirel

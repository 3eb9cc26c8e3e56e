-- SUMMARY: The plan of a SELECT above its rows, and when every item of the SELECT list is in the output.
import Minirel.Aggregation
import Minirel.Sorting

/-!
# Plans of SELECT

`build_select_plan` above the row source and the join: grouping or projection, ORDER BY
and LIMIT. An output row is a dictionary. Its keys are the output names of the SELECT items,
and items with one name share an entry.
-/

namespace Minirel

variable {C : Conversions} {A : FloatArithmetic} {lower : String → String} {stmt : Select}
  {source child plan : Operator} {rows : List Row} {items : List SelectItem} {row : Row}

/-! ## The plan -/

def Expr.isCall : Expr → Bool
  | .functionCall .. => true
  | _ => false

/-- `has_aggregates or stmt.group_by`. -/
def Select.aggregates (stmt : Select) : Bool :=
  stmt.items.any (·.expr.isCall) || !stmt.groupBy.isEmpty

/-- A `SortOperator` if there are keys, and a `LimitOperator` if there is a limit. -/
def sortAndLimit (plan : Operator) (stmt : Select) : Operator :=
  let plan := if stmt.orderBy.isEmpty then plan else plan.sort stmt.orderBy
  match stmt.limit with
  | none => plan
  | some n => plan.limit n

/-- `build_select_plan` above the row source and the join. -/
def selectPlan (C : Conversions) (A : FloatArithmetic) (lower : String → String) (source : Operator)
    (stmt : Select) : Operator :=
  if stmt.aggregates then sortAndLimit (source.hashAggregate C A lower stmt.groupBy stmt.items) stmt
  else (sortAndLimit source stmt).projectOperator lower stmt.items

/-! ## Sorting and limiting add no rows -/

theorem mapM_pair {α β : Type} {f : α → Except PyError β} {l : List α} {keyed : List (β × α)}
    (h : (l.mapM fun a => do return (← f a, a)) = .ok keyed) : keyed.map (·.2) = l := by
  induction l generalizing keyed with
  | nil =>
    cases h
    rfl
  | cons a l ih =>
    rw [List.mapM_cons] at h
    obtain ⟨x, hx, h⟩ := bind_eq_ok.mp h
    obtain ⟨xs, hxs, h⟩ := bind_eq_ok.mp h
    obtain ⟨b, -, hx⟩ := bind_eq_ok.mp hx
    cases hx
    cases h
    rw [List.map_cons, ih hxs]

theorem sortPass_perm {item : OrderByItem} {out : List Row} (h : sortPass item rows = .ok out) :
    out.Perm rows := by
  obtain ⟨keyed, hkeyed, h⟩ := bind_eq_ok.mp h
  obtain ⟨sorted, hsorted, h⟩ := bind_eq_ok.mp h
  cases h
  have hrows : keyed.map (·.2) = rows := mapM_pair hkeyed
  unfold listSort at hsorted
  split at hsorted
  · cases hsorted
    rw [← hrows]
    exact (List.perm_insertionSort _ _).map _
  · cases hsorted

theorem sortRows_perm {orderBy : List OrderByItem} {out : List Row} (h : sortRows orderBy rows = .ok out) :
    out.Perm rows := by
  induction orderBy generalizing out with
  | nil =>
    cases h
    exact .refl _
  | cons item orderBy ih =>
    rw [sortRows_cons] at h
    obtain ⟨ys, hys, h⟩ := bind_eq_ok.mp h
    exact (sortPass_perm h).trans (ih hys)

/-- An operator that takes in all rows yields what it makes of them, unless it raises. -/
theorem Operator.Opens.made {σ : Type} {step : σ → Row → Except PyError σ} {acc : σ}
    {finish : σ → Except PyError (List Row)} (h : child.Opens (fun _ => True) rows) :
    ∃ out, (child.materialize step acc finish).Opens (fun _ => True) out ∧
      (out = [] ∨ (rows.foldlM step acc >>= finish) = .ok out) := by
  cases hmade : rows.foldlM step acc >>= finish with
  | ok out =>
    refine ⟨out, h.materialize (fun _ _ => trivial) fun found hfound => ?_, .inr rfl⟩
    rw [hmade] at hfound
    cases hfound
    rfl
  | error e =>
    refine ⟨[], h.materialize (fun _ _ => trivial) fun found hfound => ?_, .inl rfl⟩
    rw [hmade] at hfound
    cases hfound

theorem Operator.Opens.sortAndLimit (h : plan.Opens (fun _ => True) rows) (stmt : Select) :
    ∃ out, (sortAndLimit plan stmt).Opens (fun _ => True) out ∧ out ⊆ rows := by
  have hsort : ∃ out, (if stmt.orderBy.isEmpty then plan else plan.sort stmt.orderBy).Opens
      (fun _ => True) out ∧ out ⊆ rows := by
    split
    · exact ⟨rows, h, List.Subset.refl _⟩
    · have hmade : ∃ out, (plan.sort stmt.orderBy).Opens (fun _ => True) out ∧ _ := h.made
      obtain ⟨out, hopens, hout⟩ := hmade
      refine ⟨out, hopens, ?_⟩
      obtain rfl | hout := hout
      · exact List.nil_subset _
      · rw [takenIn_eq] at hout
        exact (sortRows_perm hout).subset
  obtain ⟨out, hopens, hsub⟩ := hsort
  unfold Minirel.sortAndLimit
  dsimp only
  split
  · exact ⟨out, hopens, hsub⟩
  · exact ⟨_, hopens.limit _, fun row hrow => hsub (List.mem_of_mem_take hrow)⟩

/-! ## Projection -/

/-- One round of the loop of `__iter__`. -/
theorem Operator.pullAll_succ (op : Operator) (fuel : Nat) (s : op.State) :
    op.pullAll (fuel + 1) s =
      match op.next fuel s with
      | .error e s₁ => .error e s₁
      | .ok none s₁ => .ok [] s₁
      | .ok (some row) s₁ =>
        match op.pullAll fuel s₁ with
        | .error e s₂ => .error e s₂
        | .ok rest s₂ => .ok (row :: rest) s₂ := by
  simp only [pullAll, bind, EStateM.bind]
  cases op.next fuel s with
  | error e s₁ => rfl
  | ok r s₁ =>
    cases r with
    | none => rfl
    | some row =>
      simp only [EStateM.bind]
      cases op.pullAll fuel s₁ <;> rfl

/-- The value of each item is in the row, and there is nothing else. -/
def Carries (lower : String → String) (values : List (SelectItem × RowItem)) (row : Row) : Prop :=
  row.length = values.length ∧ ∀ x ∈ values, row.get? (Operator.itemName lower x.1) = some x.2

/-- The row that is made by setting one item after the other. -/
def itemRow (lower : String → String) (values : List (SelectItem × RowItem)) : Row :=
  .ofList (values.map fun x => (Operator.itemName lower x.1, x.2))

/-- Such a row has as many entries as there are items only if their names are distinct. -/
theorem length_itemRow_iff {values : List (SelectItem × RowItem)} (hvalues : values.map (·.1) = items) :
    (itemRow lower values).length = items.length ↔ (items.map (Operator.itemName lower)).Nodup := by
  have hkeys : (values.map fun x => (Operator.itemName lower x.1, x.2)).map (·.1) =
      items.map (Operator.itemName lower) := by
    rw [← hvalues, List.map_map, List.map_map]
    rfl
  rw [← hkeys, ← Dict.length_ofList_eq_iff, List.length_map, ← hvalues, List.length_map]
  rfl

/-- It carries them all then. -/
theorem carries_itemRow {values : List (SelectItem × RowItem)} (hvalues : values.map (·.1) = items)
    (hnames : (items.map (Operator.itemName lower)).Nodup) : Carries lower values (itemRow lower values) := by
  refine ⟨?_, fun x hx => Dict.get?_ofList_of_mem ?_ (List.mem_map_of_mem hx)⟩
  · rw [(length_itemRow_iff hvalues).mpr hnames, ← hvalues, List.length_map]
  · rw [List.map_map]
    rw [← hvalues, List.map_map] at hnames
    exact hnames

/-! ### In a projection -/

/-- What `HashAggregateOperator` makes of an item, from the state it has for it if any. -/
def groupValue (A : FloatArithmetic) (lower : String → String) (g : Group) (item : SelectItem)
    (state : Option AggState) : Except PyError RowItem :=
  match state with
  | some state => state.result A
  | none => .ok (columnOr g.values (sourceName lower item))

/-- The group of no rows. -/
def noRows (items : List SelectItem) : Group := newGroup [] items []

theorem groupRow_eq {g : Group} (hstates : g.states.length = items.length)
    (h : groupRow A lower items g = .ok row) :
    ∃ values : List (SelectItem × RowItem), values.map (·.1) = items ∧
      (∀ x ∈ values.zip g.states, groupValue A lower g x.1.1 x.2 = .ok x.1.2) ∧
      row = itemRow lower values := by
  have hset : (fun (out : Row) (x : SelectItem × Option AggState) => setItem A lower g.values out x.1 x.2) =
      fun out x => do return out.set (Operator.itemName lower x.1) (← groupValue A lower g x.1 x.2) := by
    funext out x
    obtain ⟨item, state⟩ := x
    cases state <;> rfl
  rw [groupRow, hset] at h
  obtain ⟨values, hvalues, hall, rfl⟩ := Dict.of_foldlM_set h
  have hstate : g.states = values.map (·.1.2) := by
    rw [← List.map_snd_zip (Nat.le_of_eq hstates), ← hvalues, List.map_map]
    rfl
  have hzip : (values.map fun y => (y.1.1, y.2)).zip g.states =
      values.map fun y => ((y.1.1, y.2), y.1.2) := by
    rw [hstate, List.zip_map']
  refine ⟨values.map fun y => (y.1.1, y.2), ?_, ?_, ?_⟩
  · rw [List.map_map, ← List.map_fst_zip (Nat.le_of_eq hstates.symm), ← hvalues, List.map_map]
    rfl
  · rw [hzip]
    intro x hx
    obtain ⟨y, hy, rfl⟩ := List.mem_map.mp hx
    exact hall y hy
  · rw [itemRow, List.map_map]
    rfl

theorem emptyRow_of_calls (hcalls : ∀ item ∈ items, item.expr.isCall = true) :
    emptyRow A lower items = groupRow A lower items (noRows items) := by
  have hcongr : ∀ (values d : Row), items.foldlM (fun out item => do
      match item.expr with
      | .functionCall name _ =>
        return out.set (Operator.itemName lower item) (← ({ kind := .ofName name } : AggState).result A)
      | _ => return out) d =
      (items.map fun item => (item, match item.expr with
        | .functionCall name _ => some { kind := .ofName name }
        | _ => none)).foldlM (fun out x => setItem A lower values out x.1 x.2) d := by
    intro values d
    induction items generalizing d with
    | nil => rfl
    | cons item items ih =>
      obtain ⟨hitem, hitems⟩ := List.forall_mem_cons.mp hcalls
      rw [List.map_cons, List.foldlM_cons, List.foldlM_cons]
      cases hexpr : item.expr with
      | functionCall name arg =>
        refine congrArg _ (funext fun out => ?_)
        exact ih hitems out
      | _ =>
        rw [hexpr] at hitem
        cases hitem
  rw [groupRow, noRows, newGroup, zip_map_eq]
  exact hcongr _ []

/-- Without rows only the aggregates are set. -/
theorem length_emptyRow_le (h : emptyRow A lower items = .ok row) :
    row.length ≤ items.countP (·.expr.isCall) := by
  have hlength : ∀ (d : Row), items.foldlM (fun out item => do
      match item.expr with
      | .functionCall name _ =>
        return out.set (Operator.itemName lower item) (← ({ kind := .ofName name } : AggState).result A)
      | _ => return out) d = .ok row → row.length ≤ d.length + items.countP (·.expr.isCall) := by
    clear h
    intro d h
    induction items generalizing d with
    | nil =>
      cases h
      exact Nat.le_refl _
    | cons item items ih =>
      rw [List.foldlM_cons] at h
      obtain ⟨out, hout, h⟩ := bind_eq_ok.mp h
      refine (ih out h).trans ?_
      cases hexpr : item.expr with
      | functionCall name arg =>
        rw [hexpr] at hout
        obtain ⟨v, -, hout⟩ := bind_eq_ok.mp hout
        cases hout
        have hset := d.length_set_le (Operator.itemName lower item) v
        rw [List.countP_cons_of_pos (by rw [hexpr]; rfl)]
        omega
      | _ =>
        rw [hexpr] at hout
        cases hout
        rw [List.countP_cons_of_neg (by rw [hexpr]; exact Bool.false_ne_true)]
  simpa using hlength [] h

theorem addRow_states {groupBy : List String} {groups groups' : List Group}
    (hstates : ∀ g ∈ groups, g.states.length = items.length)
    (h : addRow C A groupBy items groups row = .ok groups') :
    groups' ≠ [] ∧ ∀ g ∈ groups', g.states.length = items.length := by
  have habsorb : ∀ {g g' : Group}, g.states.length = items.length → absorb C A items row g = .ok g' →
      g'.states.length = items.length := by
    intro g g' hlength hg
    obtain ⟨states, hmap, hg⟩ := bind_eq_ok.mp hg
    cases hg
    have hsame := congrArg List.length (mapM_eq_ok.mp hmap)
    rw [List.length_map, List.length_map, List.length_zip, hlength, Nat.min_self] at hsame
    exact hsame.symm
  induction groups generalizing groups' with
  | nil =>
    obtain ⟨g, hg, h⟩ := bind_eq_ok.mp h
    cases h
    refine ⟨List.cons_ne_nil _ _, List.forall_mem_singleton.mpr (habsorb ?_ hg)⟩
    exact List.length_map _
  | cons g groups ih =>
    obtain ⟨hg, hgroups⟩ := List.forall_mem_cons.mp hstates
    rw [addRow] at h
    split at h
    · obtain ⟨g', hg', h⟩ := bind_eq_ok.mp h
      cases h
      exact ⟨List.cons_ne_nil _ _, List.forall_mem_cons.mpr ⟨habsorb hg hg', hgroups⟩⟩
    · obtain ⟨rest, hrest, h⟩ := bind_eq_ok.mp h
      cases h
      exact ⟨List.cons_ne_nil _ _, List.forall_mem_cons.mpr ⟨hg, (ih hgroups hrest).2⟩⟩

theorem foldlM_addRow_states {groupBy : List String} {groups groups' : List Group}
    (hstates : ∀ g ∈ groups, g.states.length = items.length)
    (h : rows.foldlM (addRow C A groupBy items) groups = .ok groups') :
    (groups' = [] ↔ groups = [] ∧ rows = []) ∧ ∀ g ∈ groups', g.states.length = items.length := by
  induction rows generalizing groups with
  | nil =>
    cases h
    exact ⟨by simp, hstates⟩
  | cons row rows ih =>
    rw [List.foldlM_cons] at h
    obtain ⟨groups₁, hadd, h⟩ := bind_eq_ok.mp h
    obtain ⟨hne, hstates₁⟩ := addRow_states hstates hadd
    obtain ⟨hiff, hlengths⟩ := ih hstates₁ h
    exact ⟨⟨fun hnil => absurd (hiff.mp hnil).1 hne, fun hnil => by cases hnil.2⟩, hlengths⟩

/-! ## The law -/

/-- A value for each item of the SELECT list: of one of the rows, or of one of the groups. -/
def Selected (C : Conversions) (A : FloatArithmetic) (lower : String → String) (rows : List Row)
    (stmt : Select) (values : List (SelectItem × RowItem)) : Prop :=
  values.map (·.1) = stmt.items ∧
    if stmt.aggregates then
      ∃ groups g, rows.foldlM (addRow C A stmt.groupBy stmt.items) [] = .ok groups ∧
        (g ∈ groups ∨ groups = [] ∧ stmt.groupBy = [] ∧ g = noRows stmt.items) ∧
        ∀ x ∈ values.zip g.states, groupValue A lower g x.1.1 x.2 = .ok x.1.2
    else ∃ r ∈ rows, ∀ x ∈ values, evaluate x.1.expr r = .ok x.2

/-- No two items have one output name, and aggregates over no rows at all stand alone. -/
def Separate (lower : String → String) (rows : List Row) (stmt : Select) : Prop :=
  (stmt.items.map (Operator.itemName lower)).Nodup ∧
    (stmt.aggregates = true → stmt.groupBy = [] → rows = [] → ∀ item ∈ stmt.items, item.expr.isCall = true)

theorem Carries.length_eq {values : List (SelectItem × RowItem)} (h : Carries lower values row)
    (hvalues : values.map (·.1) = items) : row.length = items.length := by
  rw [h.1, ← hvalues, List.length_map]

/-- The rows that come out of the groups, with the values that they are made of. -/
theorem Selected.of_groups (haggregates : stmt.aggregates = true) {groups : List Group} {out : List Row}
    (hgroups : rows.foldlM (addRow C A stmt.groupBy stmt.items) [] = .ok groups)
    (hout : groupRows A lower stmt.groupBy stmt.items groups = .ok out) (hrow : row ∈ out) :
    (∃ values, Selected C A lower rows stmt values ∧ Carries lower values row) ↔
      Separate lower rows stmt := by
  have hstates := foldlM_addRow_states (by simp) hgroups
  obtain ⟨made, hmade, hout⟩ := bind_eq_ok.mp hout
  -- a row of values is full if and only if the names are distinct
  have hitemRow : ∀ g values, (g ∈ groups ∨ groups = [] ∧ stmt.groupBy = [] ∧ g = noRows stmt.items) →
      values.map (·.1) = stmt.items →
      (∀ x ∈ values.zip g.states, groupValue A lower g x.1.1 x.2 = .ok x.1.2) →
      ((∃ values', Selected C A lower rows stmt values' ∧ Carries lower values' (itemRow lower values)) ↔
        (stmt.items.map (Operator.itemName lower)).Nodup) := by
    intro g values hg hvalues hall
    constructor
    · rintro ⟨values', hselected, hcarries⟩
      exact (length_itemRow_iff hvalues).mp (hcarries.length_eq hselected.1)
    · intro hnames
      refine ⟨values, ⟨hvalues, ?_⟩, carries_itemRow hvalues hnames⟩
      rw [if_pos haggregates]
      exact ⟨groups, g, hgroups, hg, hall⟩
  split at hout
  · rename_i hempty
    obtain ⟨hnil, hgroupBy⟩ := Bool.and_eq_true_iff.mp hempty
    rw [List.isEmpty_iff] at hnil hgroupBy
    obtain ⟨-, hrows⟩ := hstates.1.mp hnil
    obtain ⟨empty, hrun, hout⟩ := bind_eq_ok.mp hout
    cases hout
    rw [hnil] at hmade
    cases hmade
    obtain rfl : row = empty := List.mem_singleton.mp hrow
    by_cases hcalls : ∀ item ∈ stmt.items, item.expr.isCall = true
    · rw [emptyRow_of_calls hcalls] at hrun
      obtain ⟨values, hvalues, hall, rfl⟩ := groupRow_eq (List.length_map _) hrun
      rw [hitemRow _ values (.inr ⟨hnil, hgroupBy, rfl⟩) hvalues hall]
      exact ⟨fun hnames => ⟨hnames, fun _ _ _ => hcalls⟩, fun h => h.1⟩
    · refine ⟨?_, fun h => absurd (h.2 haggregates hgroupBy hrows) hcalls⟩
      rintro ⟨values, hselected, hcarries⟩
      have hle := (hcarries.length_eq hselected.1).symm.trans_le (length_emptyRow_le hrun)
      have hall := List.countP_eq_length.mp (Nat.le_antisymm List.countP_le_length hle)
      exact absurd hall hcalls
  · rename_i hempty
    cases hout
    obtain ⟨g, hg, hrun⟩ : ∃ g ∈ groups, groupRow A lower stmt.items g = .ok row := by
      rw [← List.mem_map, mapM_eq_ok.mp hmade]
      exact List.mem_map_of_mem hrow
    obtain ⟨values, hvalues, hall, rfl⟩ := groupRow_eq (hstates.2 g hg) hrun
    rw [hitemRow g values (.inl hg) hvalues hall]
    refine ⟨fun hnames => ⟨hnames, fun _ hgroupBy hrows => absurd ?_ hempty⟩, fun h => h.1⟩
    rw [hstates.1.mpr ⟨rfl, hrows⟩, hgroupBy]
    rfl

end Minirel

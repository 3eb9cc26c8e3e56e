-- SUMMARY: Draining a tree of operators yields the rows of its list semantics.
import Minirel.Operators

/-!
# Trees of operators

What a tree of operators stands for is a list: the rows that satisfy a predicate, the
merged rows that satisfy an ON, the first rows, the rows a projection makes. Pulling the
tree yields that list, with what the operators keep between the pulls hidden in `Yields`.
-/

namespace Minirel
namespace Operator

variable {raises : PyError → Prop} {op child left : Operator} {right : Nat → Operator} {rows ls rs : List Row}

/-- The pulls from a state yield these rows and then none. -/
def Yields (raises : PyError → Prop) (op : Operator) : List Row → op.State → Prop
  | [] => Ends raises op.next fun found _ => found = none
  | row :: rows => Ends raises op.next fun found s => found = some row ∧ Yields raises op rows s

/-- From whatever state it is opened, the operator is ready to yield these rows. -/
def Opens (raises : PyError → Prop) (op : Operator) (rows : List Row) : Prop :=
  ∀ s, Ends raises op.start (fun _ => op.Yields raises rows) s

/-- A pull that goes on as it would from other states that yield the rows. -/
theorem yields_of_next {s : op.State} {A : op.State → Prop} (hA : ∀ s', A s' → op.Yields raises rows s')
    (hnext : ∀ Q, (∀ s', A s' → Ends raises op.next Q s') → Ends raises op.next Q s) :
    op.Yields raises rows s := by
  cases rows with
  | nil => exact hnext _ hA
  | cons row rows => exact hnext _ hA

/-! ## Draining -/

theorem Yields.pullAll {s : op.State} (h : op.Yields raises rows s) :
    Ends raises op.pullAll (fun found _ => found = rows) s := by
  induction rows generalizing s with
  | nil =>
    refine Ends.succ (h.bind fun found s' hfound => ?_) (fun _ => rfl) ⟨_, _, rfl⟩
    subst hfound
    exact .of_ok (fun _ => rfl) rfl
  | cons row rows ih =>
    refine Ends.succ (h.bind fun found s' hfound => ?_) (fun _ => rfl) ⟨_, _, rfl⟩
    obtain ⟨rfl, hrest⟩ := hfound
    refine (ih hrest).bind fun rest s'' hrest => ?_
    subst hrest
    exact .of_ok (fun _ => rfl) rfl

/-- Closing the operator does not raise. -/
def Closes (op : Operator) : Prop := ∀ s, ∃ s', op.close s = .ok () s'

theorem Opens.drain (h : op.Opens raises rows) (hclose : op.Closes) (s : op.State) :
    Ends raises op.drain (fun found _ => found = rows) s := by
  refine (h s).bind fun _ s₁ hyields => ?_
  obtain ⟨⟨n, hend⟩, hpulled⟩ := hyields.pullAll
  refine ⟨⟨n, ?_⟩, fun fuel found s₂ hrun => ?_⟩
  · obtain ⟨found, s₂, hpull⟩ | ⟨e, s₂, he, hpull⟩ := hend
    · obtain ⟨s₃, hclosed⟩ := hclose s₂
      refine .inl ⟨found, s₃, fun fuel hle => ?_⟩
      simp only [hpull fuel hle, bind, EStateM.bind, hclosed, pure, EStateM.pure]
    · obtain ⟨s₃, hclosed⟩ := hclose s₂
      refine .inr ⟨e, s₃, he, fun fuel hle => ?_⟩
      simp only [hpull fuel hle, bind, EStateM.bind, hclosed]
      rfl
  · cases hpull : op.pullAll fuel s₁ with
    | ok found' s₃ =>
      obtain ⟨s₄, hclosed⟩ := hclose s₃
      simp only [hpull, bind, EStateM.bind, hclosed, pure, EStateM.pure] at hrun
      cases hrun
      exact hpulled fuel _ _ hpull
    | error e s₃ =>
      obtain ⟨s₄, hclosed⟩ := hclose s₃
      simp only [hpull, bind, EStateM.bind, hclosed] at hrun
      cases hrun

/-! ## Leaves and operators over one other -/

theorem opens_leaf (rows : List Row) : (leaf rows).Opens raises rows := by
  have hyields : ∀ rest, (leaf rows).Yields raises rest (some rest) := by
    intro rest
    induction rest with
    | nil => exact .of_ok (fun _ => rfl) rfl
    | cons row rest ih => exact .of_ok (fun _ => rfl) ⟨rfl, ih⟩
  exact fun s => .of_ok (fun _ => rfl) (hyields rows)

theorem closes_leaf (rows : List Row) : (leaf rows).Closes := fun s => ⟨s, rfl⟩

/-- An evaluation between two calls. -/
theorem ends_evaluated {σ α β : Type} {x : Except PyError α} {f : α → Fueled PyError σ β}
    {R : β → σ → Prop} {s : σ} (hraises : ∀ e, x = .error e → raises e)
    (h : ∀ a, x = .ok a → Ends raises (f a) R s) :
    Ends raises (fun fuel => evaluated x >>= fun a => f a fuel) R s := by
  cases x with
  | ok a => exact h a rfl
  | error e => exact .of_error (fun _ => rfl) (hraises e rfl)

/-- The predicate evaluates to something true. -/
def satisfies (predicate : Expr) (row : Row) : Bool := holds predicate row = .ok true

theorem Yields.filter {predicate : Expr} {s : child.State} (h : child.Yields raises rows s)
    (heval : ∀ row ∈ rows, ∀ e, holds predicate row = .error e → raises e) :
    (child.filter predicate).Yields raises (rows.filter (satisfies predicate)) s := by
  induction rows generalizing s with
  | nil =>
    refine Ends.succ (h.bind fun found s' hfound => ?_) (fun _ => rfl) ⟨_, _, rfl⟩
    subst hfound
    exact .of_ok (fun _ => rfl) rfl
  | cons row rows ih =>
    have hrest : ∀ row ∈ rows, ∀ e, holds predicate row = .error e → raises e := fun x hx =>
      heval x (List.mem_cons_of_mem _ hx)
    have hrow : ∀ e, holds predicate row = .error e → raises e := heval row List.mem_cons_self
    by_cases hsat : satisfies predicate row
    · rw [List.filter_cons_of_pos hsat]
      refine Ends.succ (h.bind fun found s' hfound => ?_) (fun _ => rfl) ⟨_, _, rfl⟩
      obtain ⟨rfl, hyields⟩ := hfound
      refine ends_evaluated hrow fun b hb => ?_
      obtain rfl : true = b := Except.ok.inj ((of_decide_eq_true hsat).symm.trans hb)
      exact .of_ok (fun _ => rfl) ⟨rfl, ih hyields hrest⟩
    · rw [List.filter_cons_of_neg hsat]
      -- the loop goes on as it would from the state after the row
      refine yields_of_next (fun s' hyields => ih hyields hrest) fun Q hnext => ?_
      refine Ends.succ (h.bind fun found s' hfound => ?_) (fun _ => rfl) ⟨_, _, rfl⟩
      obtain ⟨rfl, hyields⟩ := hfound
      refine ends_evaluated hrow fun b hb => ?_
      obtain rfl : b = false := by
        simpa [satisfies, hb] using hsat
      exact hnext s' hyields

theorem Opens.filter {predicate : Expr} (h : child.Opens raises rows)
    (heval : ∀ row ∈ rows, ∀ e, holds predicate row = .error e → raises e) :
    (child.filter predicate).Opens raises (rows.filter (satisfies predicate)) := fun s =>
  (h s).mono fun _ _ hyields => hyields.filter heval

theorem Closes.filter {predicate : Expr} (h : child.Closes) : (child.filter predicate).Closes := h

/-! ### LIMIT -/

theorem limit_next_of_ge {n : Int} {count : Nat} (h : (count : Int) ≥ n) (s : child.State) (fuel : Nat) :
    (child.limit n).next fuel ⟨s, count⟩ = .ok none ⟨s, count⟩ := by
  change (if (count : Int) ≥ n then _ else _ : EStateM PyError (LimitState child) _) _ = _
  exact congrFun (if_pos h) _

theorem limit_next_of_lt {n : Int} {count : Nat} (h : ¬(count : Int) ≥ n) (s : child.State) (fuel : Nat) :
    (child.limit n).next fuel ⟨s, count⟩ = (do
      match ← LimitState.onChild (child.next fuel) with
      | none => return none
      | some row =>
        modify fun s => { s with count := s.count + 1 }
        return some row : EStateM PyError (LimitState child) (Option Row)) ⟨s, count⟩ := by
  change (if (count : Int) ≥ n then _ else _ : EStateM PyError (LimitState child) _) _ = _
  exact congrFun (if_neg h) _

theorem ends_onChild {α : Type} {m : Fueled PyError child.State α} {Q : α → LimitState child → Prop}
    {s : LimitState child} (h : Ends raises m (fun a c => Q a ⟨c, s.count⟩) s.child) :
    Ends raises (fun fuel => LimitState.onChild (m fuel)) Q s :=
  Ends.zoom (fun c => ⟨c, s.count⟩) (fun fuel => by
    simp only [LimitState.onChild]
    cases m fuel s.child <;> rfl) h

theorem Yields.limit {n : Int} {s : child.State} {count : Nat} (h : child.Yields raises rows s) :
    (child.limit n).Yields raises (rows.take (n - count).toNat) ⟨s, count⟩ := by
  induction rows generalizing s count with
  | nil =>
    rw [List.take_nil]
    by_cases hcount : (count : Int) ≥ n
    · exact .of_ok (limit_next_of_ge hcount s) rfl
    · refine Ends.congr ?_ (limit_next_of_lt hcount s)
      have hpull : Ends raises (fun fuel => LimitState.onChild (child.next fuel))
          (fun found _ => found = none) ⟨s, count⟩ := ends_onChild h
      refine hpull.bind fun found s' hfound => ?_
      subst hfound
      exact .of_ok (fun _ => rfl) rfl
  | cons row rows ih =>
    by_cases hcount : (count : Int) ≥ n
    · have hzero : (n - count).toNat = 0 := by omega
      rw [hzero]
      exact .of_ok (limit_next_of_ge hcount s) rfl
    · have hsucc : (n - count).toNat = (n - (count + 1 : Nat)).toNat + 1 := by omega
      rw [hsucc, List.take_succ_cons]
      refine Ends.congr ?_ (limit_next_of_lt hcount s)
      have hpull : Ends raises (fun fuel => LimitState.onChild (child.next fuel))
          (fun found s' => (found = some row ∧ child.Yields raises rows s'.child) ∧ s'.count = count)
          ⟨s, count⟩ := ends_onChild (h.mono fun _ _ hfound => ⟨hfound, rfl⟩)
      refine hpull.bind fun found s' hfound => ?_
      obtain ⟨⟨rfl, hyields⟩, rfl⟩ := hfound
      exact .of_ok (fun _ => rfl) ⟨rfl, ih hyields⟩

theorem Opens.limit (h : child.Opens raises rows) (n : Int) :
    (child.limit n).Opens raises (rows.take n.toNat) := fun s => by
  have hstart : Ends raises (fun fuel => LimitState.onChild (child.start fuel))
      (fun _ s' => child.Yields raises rows s'.child) s := ends_onChild (h s.child)
  refine hstart.bind fun _ s' hyields => .of_ok (fun _ => rfl) ?_
  have hlimit : (child.limit n).Yields raises (rows.take (n - (0 : Nat)).toNat) ⟨s'.child, 0⟩ :=
    hyields.limit
  simpa using hlimit

theorem Closes.limit (h : child.Closes) (n : Int) : (child.limit n).Closes := fun s => by
  obtain ⟨c, hc⟩ := h s.child
  refine ⟨⟨c, s.count⟩, ?_⟩
  simp only [Operator.limit, LimitState.onChild, hc]

/-! ### Operators that take in all rows -/

section Materialize
variable {σ : Type} {step : σ → Row → Except PyError σ} {acc : σ} {finish : σ → Except PyError (List Row)}

theorem Yields.takeIn {s : child.State} (h : child.Yields raises rows s)
    (heval : ∀ e, rows.foldlM step acc = .error e → raises e) :
    Ends raises (child.takeIn step acc) (fun found _ => rows.foldlM step acc = .ok found) s := by
  induction rows generalizing s acc with
  | nil =>
    refine Ends.succ (h.bind fun found s' hfound => ?_) (fun _ => rfl) ⟨_, _, rfl⟩
    subst hfound
    exact .of_ok (fun _ => rfl) rfl
  | cons row rows ih =>
    refine Ends.succ (h.bind fun found s' hfound => ?_) (fun _ => rfl) ⟨_, _, rfl⟩
    obtain ⟨rfl, hyields⟩ := hfound
    refine ends_evaluated (fun e he => heval e ?_) fun acc' hacc => ?_
    · rw [List.foldlM_cons, he]
      rfl
    · have hfold : (row :: rows).foldlM step acc = rows.foldlM step acc' := by
        rw [List.foldlM_cons, hacc]
        rfl
      rw [hfold] at heval ⊢
      exact ih hyields heval

theorem ends_onMaterialized {α : Type} {m : Fueled PyError child.State α}
    {Q : α → MaterializedState child → Prop} {s : MaterializedState child}
    (h : Ends raises m (fun a c => Q a { s with child := c }) s.child) :
    Ends raises (fun fuel => MaterializedState.onChild (m fuel)) Q s :=
  Ends.zoom (fun c => { s with child := c }) (fun fuel => by
    simp only [MaterializedState.onChild]
    cases m fuel s.child <;> rfl) h

theorem materialize_next (c : child.State) (made : List Row) (pos fuel : Nat) :
    (child.materialize step acc finish).next fuel ⟨c, some made, pos⟩ =
      match made[pos]? with
      | none => .ok none ⟨c, some made, pos⟩
      | some row => .ok (some row) ⟨c, some made, pos + 1⟩ := rfl

/-- Opened, the operator is ready to hand out what it has made of the rows of its child. -/
theorem Opens.materialize {out : List Row} (h : child.Opens raises rows)
    (heval : ∀ e, (rows.foldlM step acc >>= finish) = .error e → raises e)
    (hout : ∀ found, (rows.foldlM step acc >>= finish) = .ok found → found = out) :
    (child.materialize step acc finish).Opens raises out := by
  have hhand : ∀ (c : child.State) (made : List Row) (pos : Nat),
      (child.materialize step acc finish).Yields raises (made.drop pos) ⟨c, some made, pos⟩ := by
    intro c made pos
    induction hrest : made.drop pos generalizing pos with
    | nil =>
      have hnone : made[pos]? = none := List.getElem?_eq_none (List.drop_eq_nil_iff.mp hrest)
      have hnext : ∀ fuel, (child.materialize step acc finish).next fuel ⟨c, some made, pos⟩ =
          .ok none ⟨c, some made, pos⟩ := fun fuel => by rw [materialize_next, hnone]
      exact .of_ok hnext rfl
    | cons row rest ih =>
      have hsome : made[pos]? = some row := by
        rw [← List.head?_drop, hrest]
        rfl
      have htail : made.drop (pos + 1) = rest := by
        rw [← List.tail_drop, hrest]
        rfl
      have hnext : ∀ fuel, (child.materialize step acc finish).next fuel ⟨c, some made, pos⟩ =
          .ok (some row) ⟨c, some made, pos + 1⟩ := fun fuel => by rw [materialize_next, hsome]
      exact .of_ok hnext ⟨rfl, ih (pos + 1) htail⟩
  intro s
  have hstart : Ends raises (fun fuel => MaterializedState.onChild (child.start fuel))
      (fun _ s' => child.Yields raises rows s'.child) s := ends_onMaterialized (h s.child)
  refine hstart.bind fun _ s₁ hyields => ?_
  have hfold : Ends raises (fun fuel => MaterializedState.onChild (child.takeIn step acc fuel))
      (fun found _ => rows.foldlM step acc = .ok found) s₁ := by
    refine ends_onMaterialized (hyields.takeIn fun e he => heval e ?_)
    rw [he]
    rfl
  refine hfold.bind fun found s₂ hfound => ?_
  have hbind : (rows.foldlM step acc >>= finish) = finish found := by
    rw [hfound]
    rfl
  rw [hbind] at heval hout
  refine ends_evaluated heval fun made hmade => ?_
  obtain rfl := hout made hmade
  exact .of_ok (fun _ => rfl) (hhand s₂.child made 0)

theorem Closes.materialize (step : σ → Row → Except PyError σ) (acc : σ)
    (finish : σ → Except PyError (List Row)) (h : child.Closes) :
    (child.materialize step acc finish).Closes := fun s => by
  obtain ⟨c, hc⟩ := h s.child
  refine ⟨{ s with child := c }, ?_⟩
  simp only [Operator.materialize, MaterializedState.onChild, hc]

end Materialize

/-! ### Projection -/

/-- What the projection makes of a row. -/
def projected (lower : String → String) (items : List SelectItem) (row : Row) : Row :=
  (project lower items row).toOption.getD []

theorem Yields.project {lower : String → String} {items : List SelectItem} {s : child.State}
    (h : child.Yields raises rows s) (heval : ∀ row ∈ rows, ∀ e, project lower items row = .error e → raises e) :
    (projectOperator lower child items).Yields raises (rows.map (projected lower items)) s := by
  induction rows generalizing s with
  | nil =>
    refine h.bind fun found s' hfound => ?_
    subst hfound
    exact .of_ok (fun _ => rfl) rfl
  | cons row rows ih =>
    refine h.bind fun found s' hfound => ?_
    obtain ⟨rfl, hyields⟩ := hfound
    refine ends_evaluated (heval row List.mem_cons_self) fun out hout =>
      .of_ok (fun _ => rfl) ⟨?_, ih hyields fun x hx => heval x (List.mem_cons_of_mem _ hx)⟩
    simp [projected, hout, Except.toOption]

theorem Opens.project {lower : String → String} {items : List SelectItem} (h : child.Opens raises rows)
    (heval : ∀ row ∈ rows, ∀ e, project lower items row = .error e → raises e) :
    (projectOperator lower child items).Opens raises (rows.map (projected lower items)) := fun s =>
  (h s).mono fun _ _ hyields => hyields.project heval

theorem Closes.project (lower : String → String) (items : List SelectItem) (h : child.Closes) :
    (projectOperator lower child items).Closes := h

/-! ## The join -/

section Join
variable {on : Expr}

/-- The rows a left row makes with the rows of the right side. -/
def joined (on : Expr) (leftRow : Row) (rs : List Row) : List Row :=
  (rs.map leftRow.update).filter (satisfies on)

open JoinState

theorem ends_onLeft {α : Type} {m : Fueled PyError left.State α} {Q : α → JoinState left right → Prop}
    {s : JoinState left right} (h : Ends raises m (fun a l => Q a { s with left := l }) s.left) :
    Ends raises (fun fuel => onLeft (m fuel)) Q s :=
  Ends.zoom (fun l => { s with left := l }) (fun fuel => by
    simp only [onLeft]
    cases m fuel s.left <;> rfl) h

theorem ends_onRight {α : Type} {m : Nat → ∀ n, EStateM PyError (right n).State α}
    {Q : α → JoinState left right → Prop} {s : JoinState left right} {n : Nat} {r : (right n).State}
    (hr : s.right = some ⟨n, r⟩)
    (h : Ends raises (fun fuel => m fuel n) (fun a r => Q a { s with right := some ⟨n, r⟩ }) r) :
    Ends raises (fun fuel => onRight (m fuel)) Q s :=
  Ends.zoom (fun r => { s with right := some ⟨n, r⟩ }) (fun fuel => by
    simp only [onRight, hr]
    cases m fuel n r <;> rfl) h

/-- The right side is open and has these rows to hand out. -/
def Ready (raises : PyError → Prop) (s : JoinState left right) (rest : List Row) : Prop :=
  ∃ n r, s.right = some ⟨n, r⟩ ∧ (right n).Yields raises rest r

theorem ends_openRight (hright : ∀ n, (right n).Opens raises rs) (s : JoinState left right) :
    Ends raises openRight
      (fun _ s' => s'.left = s.left ∧ s'.leftRow = s.leftRow ∧ Ready raises s' rs) s := by
  have hstart : Ends raises (fun fuel => onRight fun n => (right n).start fuel)
      (fun _ (s' : JoinState left right) =>
        s'.left = s.left ∧ s'.leftRow = s.leftRow ∧ Ready raises s' rs)
      { s with right := some ⟨s.calls, (right s.calls).init⟩, calls := s.calls + 1 } :=
    ends_onRight rfl ((hright s.calls _).mono fun _ r hyields => ⟨rfl, rfl, s.calls, r, rfl, hyields⟩)
  exact hstart

/-- What a pull does as long as there is a left row. -/
theorem joinNext_succ {s : JoinState left right} {leftRow : Row} (hl : s.leftRow = some leftRow)
    (fuel : Nat) :
    joinNext left right on (fuel + 1) s = (do
      match ← onRight fun n => (right n).next fuel with
      | none =>
        onRight fun n => (right n).close
        let leftRow ← onLeft (left.next fuel)
        modify fun s => { s with leftRow }
        if leftRow.isNone then return none
        else
          openRight fuel
          joinNext left right on fuel
      | some rightRow =>
        let merged : Row := leftRow.update rightRow
        if ← evaluated (holds on merged) then return some merged
        else joinNext left right on fuel
        : EStateM PyError (JoinState left right) (Option Row)) s := by
  obtain ⟨l, calls, _, r⟩ := s
  cases hl
  rfl

/-- The left row makes its rows with what the right side has left, and then come those that
    follow the end of the right side. -/
theorem yields_rest {leftRow : Row} {l : left.State} {more rest : List Row} {s : JoinState left right}
    (hend : ∀ s', s'.leftRow = some leftRow → s'.left = l → Ready raises s' [] →
      (nestedLoopJoin left right on).Yields raises more s')
    (heval : ∀ r ∈ rest, ∀ e, holds on (leftRow.update r) = .error e → raises e)
    (hrow : s.leftRow = some leftRow) (hleft : s.left = l) (hrest : Ready raises s rest) :
    (nestedLoopJoin left right on).Yields raises (joined on leftRow rest ++ more) s := by
  induction rest generalizing s with
  | nil => exact hend s hrow hleft hrest
  | cons r rest ih =>
    have hevals : ∀ r ∈ rest, ∀ e, holds on (leftRow.update r) = .error e → raises e := fun x hx =>
      heval x (List.mem_cons_of_mem _ hx)
    obtain ⟨n, rs, hright, hyields⟩ := hrest
    have hpull : Ends raises (fun fuel => onRight fun n => (right n).next fuel)
        (fun found (s' : JoinState left right) => found = some r ∧ s'.leftRow = some leftRow ∧
          s'.left = l ∧ Ready raises s' rest) s :=
      ends_onRight hright (hyields.mono fun found r' h => ⟨h.1, hrow, hleft, n, r', rfl, h.2⟩)
    by_cases hsat : satisfies on (leftRow.update r)
    · rw [joined, List.map_cons, List.filter_cons_of_pos hsat]
      refine Ends.succ (hpull.bind fun found s' h => ?_) (joinNext_succ hrow) ⟨_, _, rfl⟩
      obtain ⟨rfl, hrow', hleft', hrest'⟩ := h
      refine ends_evaluated (heval r List.mem_cons_self) fun b hb => ?_
      obtain rfl : true = b := Except.ok.inj ((of_decide_eq_true hsat).symm.trans hb)
      exact .of_ok (fun _ => rfl) ⟨rfl, ih hevals hrow' hleft' hrest'⟩
    · rw [joined, List.map_cons, List.filter_cons_of_neg hsat]
      -- the loop goes on as it would from the state after the row
      refine yields_of_next (A := fun s' => s'.leftRow = some leftRow ∧ s'.left = l ∧ Ready raises s' rest)
        (fun s' h => ih hevals h.1 h.2.1 h.2.2) fun Q hnext => ?_
      refine Ends.succ (hpull.bind fun found s' h => ?_) (joinNext_succ hrow) ⟨_, _, rfl⟩
      obtain ⟨rfl, hjoining⟩ := h
      refine ends_evaluated (heval r List.mem_cons_self) fun b hb => ?_
      obtain rfl : b = false := by
        simpa [satisfies, hb] using hsat
      exact hnext s' hjoining

/-- Once the right side has ended, it is closed and the left side is pulled. -/
theorem ends_nextLeft (hclose : ∀ n, (right n).Closes) {P : Option Row → left.State → Prop} {β : Type}
    {k : Option Row → Fueled PyError (JoinState left right) β} {R : β → JoinState left right → Prop}
    {s : JoinState left right} {n : Nat} {r : (right n).State} (hr : s.right = some ⟨n, r⟩)
    (hleft : Ends raises left.next P s.left)
    (hk : ∀ leftRow s', s'.leftRow = leftRow → P leftRow s'.left → Ends raises (k leftRow) R s') :
    Ends raises (fun fuel => do
      onRight fun n => (right n).close
      let leftRow ← onLeft (left.next fuel)
      modify fun s => { s with leftRow }
      k leftRow fuel) R s := by
  obtain ⟨r', hclosed⟩ := hclose n r
  have hcloses : Ends raises (fun _ => onRight fun n => (right n).close)
      (fun _ (s' : JoinState left right) => s'.left = s.left) s :=
    ends_onRight hr (.of_ok (fun _ => hclosed) rfl)
  refine hcloses.bind fun _ s₁ hleft₁ => ?_
  rw [← hleft₁] at hleft
  have hpull : Ends raises (fun fuel => onLeft (left.next fuel))
      (fun found (s' : JoinState left right) => P found s'.left) s₁ := ends_onLeft hleft
  exact hpull.bind fun found s₂ h => hk found { s₂ with leftRow := found } rfl h

/-- The rows of a left row, and those of the rows that the left side still has. -/
theorem yields_join (hright : ∀ n, (right n).Opens raises rs) (hclose : ∀ n, (right n).Closes)
    {s : JoinState left right} {leftRow : Row} (hrow : s.leftRow = some leftRow)
    (hrest : Ready raises s rs) (hleft : left.Yields raises ls s.left)
    (heval : ∀ l ∈ leftRow :: ls, ∀ r ∈ rs, ∀ e, holds on (l.update r) = .error e → raises e) :
    (nestedLoopJoin left right on).Yields raises
      ((leftRow :: ls).flatMap fun l => joined on l rs) s := by
  induction ls generalizing s leftRow with
  | nil =>
    rw [List.flatMap_cons]
    refine yields_rest (fun s₁ hrow₁ hleft₁ hrest₁ => ?_)
      (heval leftRow List.mem_cons_self) hrow rfl hrest
    obtain ⟨n, r, hr, hyields⟩ := hrest₁
    have hpull : Ends raises (fun fuel => onRight fun n => (right n).next fuel)
        (fun found (s' : JoinState left right) => found = none ∧ s'.left = s.left ∧
          ∃ r', s'.right = some ⟨n, r'⟩) s₁ :=
      ends_onRight hr (hyields.mono fun found r' h => ⟨h, hleft₁, r', rfl⟩)
    refine Ends.succ (hpull.bind fun found s₂ h => ?_) (joinNext_succ hrow₁) ⟨_, _, rfl⟩
    obtain ⟨rfl, hleft₂, r', hr'⟩ := h
    refine ends_nextLeft hclose hr' (hleft₂ ▸ hleft) fun found s₃ _ hfound => ?_
    subst hfound
    exact .of_ok (fun _ => rfl) rfl
  | cons next ls ih =>
    rw [List.flatMap_cons]
    refine yields_rest (fun s₁ hrow₁ hleft₁ hrest₁ => ?_)
      (heval leftRow List.mem_cons_self) hrow rfl hrest
    obtain ⟨n, r, hr, hyields⟩ := hrest₁
    have hpull : Ends raises (fun fuel => onRight fun n => (right n).next fuel)
        (fun found (s' : JoinState left right) => found = none ∧ s'.left = s.left ∧
          ∃ r', s'.right = some ⟨n, r'⟩) s₁ :=
      ends_onRight hr (hyields.mono fun found r' h => ⟨h, hleft₁, r', rfl⟩)
    -- the loop goes on as it would with the next left row and a fresh right side
    refine yields_of_next (A := fun s' => s'.leftRow = some next ∧ Ready raises s' rs ∧
      left.Yields raises ls s'.left) (fun s' h => ih h.1 h.2.1 h.2.2 fun l hl =>
        heval l (List.mem_cons_of_mem _ hl)) fun Q hnext => ?_
    refine Ends.succ (hpull.bind fun found s₂ h => ?_) (joinNext_succ hrow₁) ⟨_, _, rfl⟩
    obtain ⟨rfl, hleft₂, r', hr'⟩ := h
    refine ends_nextLeft hclose hr' (hleft₂ ▸ hleft) fun found s₃ hrow₃ hfound => ?_
    obtain ⟨rfl, hyields₃⟩ := hfound
    refine (ends_openRight hright s₃).bind fun _ s₄ h => ?_
    obtain ⟨hleft₄, hrow₄, hready⟩ := h
    exact hnext s₄ ⟨hrow₄.trans hrow₃, hready, hleft₄ ▸ hyields₃⟩

theorem Opens.join (hleft : left.Opens raises ls) (hright : ∀ n, (right n).Opens raises rs)
    (hclose : ∀ n, (right n).Closes)
    (heval : ∀ l ∈ ls, ∀ r ∈ rs, ∀ e, holds on (l.update r) = .error e → raises e) :
    (nestedLoopJoin left right on).Opens raises (ls.flatMap fun l => joined on l rs) := fun s => by
  have hstart : Ends raises (fun fuel => onLeft (left.start fuel))
      (fun _ (s' : JoinState left right) => left.Yields raises ls s'.left) s := ends_onLeft (hleft s.left)
  refine hstart.bind fun _ s₁ hyields => ?_
  cases ls with
  | nil =>
    have hpull : Ends raises (fun fuel => onLeft (left.next fuel))
        (fun found (s' : JoinState left right) => found = none) s₁ := ends_onLeft hyields
    refine hpull.bind fun found s₂ hfound => ?_
    subst hfound
    refine .of_ok (fun _ => rfl) ?_
    have hnone : Ends raises (fun _ => (pure none : EStateM PyError (JoinState left right) (Option Row)))
        (fun found _ => found = none) { s₂ with leftRow := none, right := none } :=
      .of_ok (fun _ => rfl) rfl
    exact hnone.succ (fun _ => rfl) ⟨_, _, rfl⟩
  | cons row ls =>
    have hpull : Ends raises (fun fuel => onLeft (left.next fuel))
        (fun found (s' : JoinState left right) => found = some row ∧ left.Yields raises ls s'.left) s₁ :=
      ends_onLeft hyields
    refine hpull.bind fun found s₂ hfound => ?_
    obtain ⟨rfl, hyields₂⟩ := hfound
    refine ((ends_openRight hright { s₂ with leftRow := some row, right := none }).mono
      fun _ s₃ h => ?_).congr fun _ => rfl
    exact yields_join hright hclose h.2.1 h.2.2 (h.1 ▸ hyields₂) heval

theorem Closes.join (hleft : left.Closes) (hright : ∀ n, (right n).Closes) :
    (nestedLoopJoin left right on).Closes := fun s => by
  obtain ⟨l, hl⟩ := hleft s.left
  cases hr : s.right with
  | none =>
    refine ⟨{ s with left := l }, ?_⟩
    simp [nestedLoopJoin, onLeft, hl, hr, bind, EStateM.bind, run_get, run_pure]
  | some x =>
    obtain ⟨n, r⟩ := x
    obtain ⟨r', hr'⟩ := hright n r
    refine ⟨{ s with left := l, right := some ⟨n, r'⟩ }, ?_⟩
    simp [nestedLoopJoin, onLeft, onRight, hl, hr, hr', bind, EStateM.bind, run_get]

end Join

end Operator

/-! ## Trees -/

/-- A tree of operators. The factory of a join makes a tree for each time it is called. -/
inductive OperatorTree where
  | leaf (rows : List Row)
  | filter (child : OperatorTree) (predicate : Expr)
  | nestedLoopJoin (left : OperatorTree) (right : Nat → OperatorTree) (on : Expr)
  | limit (child : OperatorTree) (limit : Int)
  | project (child : OperatorTree) (items : List SelectItem)

namespace OperatorTree
variable (lower : String → String)

/-- The operators, wrapped around one another. -/
def operator : OperatorTree → Operator
  | leaf rows => .leaf rows
  | filter child predicate => child.operator.filter predicate
  | nestedLoopJoin left right on => .nestedLoopJoin left.operator (fun n => (right n).operator) on
  | limit child n => child.operator.limit n
  | project child items => .projectOperator lower child.operator items

/-- The list a tree stands for. -/
def rows : OperatorTree → List Row
  | leaf rows => rows
  | filter child predicate => child.rows.filter (Operator.satisfies predicate)
  | nestedLoopJoin left right on => left.rows.flatMap fun l => Operator.joined on l (right 0).rows
  | limit child n => child.rows.take n.toNat
  | project child items => child.rows.map (Operator.projected lower items)

/-- Every factory yields the same rows each time. -/
def Steady : OperatorTree → Prop
  | leaf _ => True
  | filter child _ | limit child _ | project child _ => child.Steady
  | nestedLoopJoin left right _ =>
    left.Steady ∧ ∀ n, (right n).Steady ∧ (right n).rows lower = (right 0).rows lower

/-- An expression of the tree raises on a row that its operator is about. -/
def Raises : OperatorTree → PyError → Prop
  | leaf _, _ => False
  | filter child predicate, e =>
    child.Raises e ∨ ∃ row ∈ child.rows lower, holds predicate row = .error e
  | nestedLoopJoin left right on, e => left.Raises e ∨ (∃ n, (right n).Raises e) ∨
    ∃ l ∈ left.rows lower, ∃ r ∈ (right 0).rows lower, holds on (l.update r) = .error e
  | limit child _, e => child.Raises e
  | project child items, e =>
    child.Raises e ∨ ∃ row ∈ child.rows lower, Operator.project lower items row = .error e

theorem closes (tree : OperatorTree) : (tree.operator lower).Closes := by
  induction tree with
  | leaf rows => exact Operator.closes_leaf rows
  | filter child predicate ih => exact ih.filter
  | nestedLoopJoin left right on hleft hright => exact hleft.join hright
  | limit child n ih => exact ih.limit n
  | project child items ih => exact ih.project lower items

variable {lower}

/-- Opened, a tree is ready to yield the rows of its list. -/
theorem opens {raises : PyError → Prop} (tree : OperatorTree) (hsteady : tree.Steady lower)
    (hraises : ∀ e, tree.Raises lower e → raises e) :
    (tree.operator lower).Opens raises (tree.rows lower) := by
  induction tree with
  | leaf rows => exact Operator.opens_leaf rows
  | filter child predicate ih =>
    exact (ih hsteady fun e he => hraises e (.inl he)).filter fun row hrow e he =>
      hraises e (.inr ⟨row, hrow, he⟩)
  | nestedLoopJoin left right on hleft hright =>
    refine (hleft hsteady.1 fun e he => hraises e (.inl he)).join (fun n => ?_)
      (fun n => (right n).closes lower) fun l hl r hr e he =>
        hraises e (.inr (.inr ⟨l, hl, r, hr, he⟩))
    rw [← (hsteady.2 n).2]
    exact hright n (hsteady.2 n).1 fun e he => hraises e (.inr (.inl ⟨n, he⟩))
  | limit child n ih => exact (ih hsteady hraises).limit n
  | project child items ih =>
    exact (ih hsteady fun e he => hraises e (.inl he)).project fun row hrow e he =>
      hraises e (.inr ⟨row, hrow, he⟩)

/-- Draining a tree, fresh or used, comes to an end: it yields the list of the tree, unless an
    expression raises on one of its rows. -/
theorem drain_eq_rows (tree : OperatorTree) (hsteady : tree.Steady lower)
    (s : (tree.operator lower).State) :
    (∃ n, (∃ s', ∀ fuel ≥ n, (tree.operator lower).drain fuel s = .ok (tree.rows lower) s') ∨
      ∃ e s', tree.Raises lower e ∧ ∀ fuel ≥ n, (tree.operator lower).drain fuel s = .error e s') ∧
    ∀ fuel found s', (tree.operator lower).drain fuel s = .ok found s' → found = tree.rows lower := by
  have hends : Ends (tree.Raises lower) (tree.operator lower).drain
      (fun found _ => found = tree.rows lower) s :=
    (tree.opens hsteady fun _ he => he).drain (tree.closes lower) s
  obtain ⟨⟨n, hend⟩, hfound⟩ := hends
  refine ⟨⟨n, hend.imp_left ?_⟩, hfound⟩
  rintro ⟨found, s', hrun⟩
  obtain rfl := hfound n found s' (hrun n le_rfl)
  exact ⟨s', hrun⟩

/-- The first pair of a join whose right side is made anew for each left row. -/
def firstPair : OperatorTree :=
  .limit (.nestedLoopJoin (.leaf [[("a", .value (.int 1))], [("a", .value (.int 2))]])
    (fun _ => .leaf [[("b", .value (.int 1))], [("b", .value (.int 2))]])
    (.binaryOp .lt (.columnRef "a" none) (.columnRef "b" none))) 1

theorem drain_firstPair : firstPair.Steady id ∧
    firstPair.rows id = [[("a", .value (.int 1)), ("b", .value (.int 2))]] ∧
    ((∃ n, (∃ s', ∀ fuel ≥ n, (firstPair.operator id).drain fuel (firstPair.operator id).init =
        .ok (firstPair.rows id) s') ∨
      ∃ e s', firstPair.Raises id e ∧
        ∀ fuel ≥ n, (firstPair.operator id).drain fuel (firstPair.operator id).init = .error e s') ∧
    ∀ fuel found s', (firstPair.operator id).drain fuel (firstPair.operator id).init = .ok found s' →
      found = firstPair.rows id) := by
  have hsteady : firstPair.Steady id := ⟨trivial, fun _ => ⟨trivial, rfl⟩⟩
  exact ⟨hsteady, by decide +kernel, drain_eq_rows firstPair hsteady _⟩

end OperatorTree
end Minirel

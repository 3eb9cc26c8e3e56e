-- SUMMARY: The Python values of literals and columns: comparison, truth value, conversions.
import Minirel.Storage.Page
import Mathlib.Algebra.Order.Ring.Rat
import Mathlib.Order.WithBot

/-!
# Values

What a literal or a column can hold. A finite float is the rational it stands
for: Python compares numbers exactly, also an `int` with a `float`. The sign of
zero and the payload of a NaN are not kept, since no comparison sees them.

Conversions between texts and floats are the interpreter's own. They are a
parameter, and nothing is assumed about them.
-/

namespace Minirel

inductive PyFloat where
  | nan
  | negInf
  | finite (q : ℚ)
  | posInf
  deriving DecidableEq

inductive Value where
  | none
  | bool (b : Bool)
  | int (i : Int)
  | float (x : PyFloat)
  | str (s : String)
  deriving DecidableEq

/-! ## Numbers -/

/-- The rationals between the two infinities. -/
abbrev Extended := WithBot (WithTop ℚ)

/-- Where a float stands among the numbers; NaN stands nowhere. -/
def PyFloat.rank? : PyFloat → Option Extended
  | .nan => .none
  | .negInf => some ⊥
  | .finite q => some ((q : WithTop ℚ) : Extended)
  | .posInf => some ((⊤ : WithTop ℚ) : Extended)

/-- A comparison of two numbers. One with NaN is never true. -/
def PyFloat.compare (r : Extended → Extended → Bool) (x y : PyFloat) : Bool :=
  match x.rank?, y.rank? with
  | some a, some b => r a b
  | _, _ => false

/-- The number a value is; a `bool` is an `int`. -/
def Value.number? : Value → Option PyFloat
  | .bool b => some (.finite (if b then 1 else 0))
  | .int i => some (.finite i)
  | .float x => some x
  | _ => .none

/-! ## Comparison -/

/-- `a == b`. -/
def Value.eq (a b : Value) : Bool :=
  match a.number?, b.number? with
  | some x, some y => x.compare (fun r r' => decide (r = r')) y
  | _, _ =>
    match a, b with
    | .none, .none => true
    | .str s, .str t => decide (s = t)
    | _, _ => false

/-- An order comparison: of two numbers, or of two texts by code points. -/
def Value.order (num : Extended → Extended → Bool) (str : String → String → Bool) (a b : Value) :
    Except PyError Bool :=
  match a.number?, b.number? with
  | some x, some y => .ok (x.compare num y)
  | _, _ =>
    match a, b with
    | .str s, .str t => .ok (str s t)
    | _, _ => .error .typeError

/-- `a < b`. -/
def Value.lt : Value → Value → Except PyError Bool :=
  Value.order (fun a b => decide (a < b)) (fun s t => decide (s < t))

/-- `a <= b`. -/
def Value.le : Value → Value → Except PyError Bool :=
  Value.order (fun a b => decide (a ≤ b)) (fun s t => decide (s ≤ t))

/-- `bool(a)`. -/
def Value.truthy : Value → Bool
  | .none => false
  | .bool b => b
  | .int i => decide (i ≠ 0)
  | .float x => decide (x ≠ .finite 0)
  | .str s => decide (s ≠ "")

/-! ## Conversions -/

/-- What the interpreter does between texts and floats: `int(s)`, `float(s)`,
    `float(i)`, `str(x)` and `repr(s)`. -/
structure Conversions where
  intOfStr : String → Except PyError Int
  floatOfStr : String → Except PyError PyFloat
  floatOfInt : Int → Except PyError PyFloat
  strOfFloat : PyFloat → String
  reprOfStr : String → String

namespace Conversions
variable (C : Conversions)

/-- `int(v)`: a float is cut towards zero. -/
def toInt : Value → Except PyError Int
  | .none => .error .typeError
  | .bool b => .ok (if b then 1 else 0)
  | .int i => .ok i
  | .float .nan => .error (.valueError "cannot convert float NaN to integer")
  | .float .negInf => .error .overflowError
  | .float (.finite q) => .ok (q.num.tdiv q.den)
  | .float .posInf => .error .overflowError
  | .str s => C.intOfStr s

/-- `float(v)`. -/
def toFloat : Value → Except PyError PyFloat
  | .none => .error .typeError
  | .bool b => .ok (.finite (if b then 1 else 0))
  | .int i => C.floatOfInt i
  | .float x => .ok x
  | .str s => C.floatOfStr s

/-- `str(v)`. -/
def toStr : Value → String
  | .none => "None"
  | .bool b => if b then "True" else "False"
  | .int i => toString i
  | .float x => C.strOfFloat x
  | .str s => s

/-- `repr(v)`. -/
def repr : Value → String
  | .str s => C.reprOfStr s
  | v => C.toStr v

/-- A conversion between texts and numbers that knows integers only. -/
def integral : Conversions where
  intOfStr s := match s.toInt? with
    | some i => .ok i
    | none => .error (.valueError s!"invalid literal for int() with base 10: '{s}'")
  floatOfStr s := match s.toInt? with
    | some i => .ok (.finite i)
    | none => .error (.valueError s!"could not convert string to float: '{s}'")
  floatOfInt i := .ok (.finite i)
  strOfFloat
    | .finite q => s!"{q.num}.0"
    | _ => "nan"
  reprOfStr s := s!"'{s}'"

end Conversions

/-! ## The order of the numbers -/

/-- A value that has a place among the numbers. -/
def Value.IsNumber (v : Value) : Prop := ∃ x r, v.number? = some x ∧ x.rank? = some r

/-- The place of a number. -/
def Value.rank (v : Value) : Extended := ((v.number?).bind PyFloat.rank?).getD ⊥

theorem Value.isNumber_int (i : Int) : (Value.int i).IsNumber :=
  ⟨.finite i, ((i : ℚ) : WithTop ℚ), rfl, rfl⟩

/-- A value that is no text and no NaN is `None` or has a place among the numbers. -/
theorem Value.none_or_number (v : Value) (hnan : v ≠ .float .nan) (htext : ¬∃ s, v = .str s) :
    v = .none ∨ v.IsNumber := by
  cases v with
  | none => exact .inl rfl
  | bool b => exact .inr ⟨_, _, rfl, rfl⟩
  | int i => exact .inr (Value.isNumber_int i)
  | float x =>
    cases x with
    | nan => exact absurd rfl hnan
    | negInf => exact .inr ⟨_, _, rfl, rfl⟩
    | finite q => exact .inr ⟨_, _, rfl, rfl⟩
    | posInf => exact .inr ⟨_, _, rfl, rfl⟩
  | str s => exact absurd ⟨s, rfl⟩ htext

theorem Value.IsNumber.rank_eq {v : Value} (h : v.IsNumber) :
    ∃ x, v.number? = some x ∧ x.rank? = some v.rank := by
  obtain ⟨x, r, hx, hr⟩ := h
  exact ⟨x, hx, by simp [Value.rank, hx, hr]⟩

theorem Value.lt_eq {a b : Value} (ha : a.IsNumber) (hb : b.IsNumber) :
    a.lt b = .ok (decide (a.rank < b.rank)) := by
  obtain ⟨x, hx, hxr⟩ := ha.rank_eq
  obtain ⟨y, hy, hyr⟩ := hb.rank_eq
  simp [Value.lt, Value.order, hx, hy, PyFloat.compare, hxr, hyr]

theorem Value.eq_eq {a b : Value} (ha : a.IsNumber) (hb : b.IsNumber) :
    a.eq b = decide (a.rank = b.rank) := by
  obtain ⟨x, hx, hxr⟩ := ha.rank_eq
  obtain ⟨y, hy, hyr⟩ := hb.rank_eq
  simp [Value.eq, hx, hy, PyFloat.compare, hxr, hyr]

end Minirel

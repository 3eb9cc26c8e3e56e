-- SUMMARY: Kleene's three truth values.

/-!
# Three truth values

Kleene's strong logic: a connective is definite as soon as the definite ones among its
operands decide it. A two-valued evaluation reads an unknown operand as one of the two.
-/

namespace Minirel

inductive Trilean where
  | true
  | false
  | unknown
  deriving DecidableEq

namespace Trilean

def ofBool : Bool → Trilean
  | .true => .true
  | .false => .false

def not : Trilean → Trilean
  | .true => .false
  | .false => .true
  | .unknown => .unknown

def and : Trilean → Trilean → Trilean
  | .true, u => u
  | .false, _ => .false
  | .unknown, .false => .false
  | .unknown, _ => .unknown

def or : Trilean → Trilean → Trilean
  | .true, _ => .true
  | .false, u => u
  | .unknown, .true => .true
  | .unknown, _ => .unknown

/-- The truth value, where unknown is read as the given one. -/
def reading (t : Trilean) (unknown : Bool) : Bool :=
  match t with
  | .true => Bool.true
  | .false => Bool.false
  | .unknown => unknown

variable {t u : Trilean} {a b : Bool}

@[simp] theorem reading_ofBool (a b : Bool) : (ofBool a).reading b = a := by cases a <;> rfl

theorem reading_not (t : Trilean) (a : Bool) : (!t.reading a) = t.not.reading (!a) := by
  cases t <;> rfl

/-- Unknown operands that are read as true make a conjunction true with operands that are true
    or read as true. -/
theorem reading_and (t u : Trilean) (a b : Bool) :
    (t.reading a && u.reading b) =
      (t.and u).reading (a && (b || decide (u = .true)) || decide (t = .true) && b) := by
  cases t <;> cases u <;> cases a <;> cases b <;> rfl

/-- And a disjunction with operands that are not true. -/
theorem reading_or (ha : a = Bool.true → t = .unknown) (hb : b = Bool.true → u = .unknown) :
    (t.reading a || u.reading b) =
      (t.or u).reading (a && decide (u ≠ .true) || b && decide (t ≠ .true)) := by
  cases t <;> cases u <;> cases a <;> cases b <;> simp_all [reading, or]

end Trilean
end Minirel

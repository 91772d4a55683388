import RandomDelay.Binary64.Shortest

/-!
# Numbers of seconds

Callers give seconds as a whole number of any size or as a binary64 number. Sums and differences of
whole numbers are exact. Where a binary64 number takes part, the other operand is first rounded to
binary64, and is refused if it is too large for that. Comparisons are exact between all of them and
never hold of a number that is `nan`.
-/

set_option autoImplicit false

namespace RandomDelay

/-- A whole number, or a number of the binary64 format. -/
inductive Number where
  | whole (n : Int)
  | float (x : Binary64)
deriving DecidableEq

namespace Number

/-- A number that did not become infinite. -/
def bounded : Binary64 → Except ArithmeticError Binary64
  | .infinity _ => .error .overflow
  | x => .ok x

/-- Nearest binary64 number; a whole number that would become infinite is refused. -/
def toBinary64 : Number → Except ArithmeticError Binary64
  | .whole n => bounded (.ofInt n)
  | .float x => .ok x

/-- Result of an operation that has an exact form on whole numbers. -/
def combine (exact : Int → Int → Int) (rounded : Binary64 → Binary64 → Binary64) :
    Number → Number → Except ArithmeticError Number
  | .whole a, .whole b => .ok (.whole (exact a b))
  | a, b => do
    let x ← a.toBinary64
    let y ← b.toBinary64
    return .float (rounded x y)

/-- Sum. -/
def add : Number → Number → Except ArithmeticError Number := combine (· + ·) Binary64.add

/-- Difference. -/
def sub : Number → Number → Except ArithmeticError Number := combine (· - ·) Binary64.sub

/-- Place of a number on the line with both infinities, in units of the binary64 format. -/
inductive Position where
  | negInfinity
  | units (n : Int)
  | posInfinity
deriving DecidableEq

/-- Strict order of the extended line. -/
def Position.lt : Position → Position → Bool
  | _, .negInfinity => false
  | .posInfinity, _ => false
  | .negInfinity, _ => true
  | _, .posInfinity => true
  | .units m, .units n => m < n

/-- Place of a number; `nan` has none. -/
def position? : Number → Option Position
  | .whole n => some (.units (n * Binary64.unitsPerOne))
  | .float .nan => none
  | .float (.infinity negative) => some (if negative then .negInfinity else .posInfinity)
  | .float x => some (.units x.units)

/-- Whether `a` is less than `b`. -/
def lt (a b : Number) : Bool :=
  match a.position?, b.position? with
  | some p, some q => p.lt q
  | _, _ => false

/-- Whether `a` is less than or equal to `b`. -/
def le (a b : Number) : Bool :=
  match a.position?, b.position? with
  | some p, some q => !q.lt p
  | _, _ => false

/-- The second number if it is greater than the first, else the first. -/
def larger (a b : Number) : Number := if a.lt b then b else a

/-- Decimal text: all digits of a whole number, the shortest text of a binary64 number. -/
def text : Number → List Char
  | .whole n => Text.signed n
  | .float x => x.shortestText

end Number

end RandomDelay

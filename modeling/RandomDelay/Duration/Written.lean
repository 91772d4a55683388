import RandomDelay.Duration.Amount
import RandomDelay.Failure
import RandomDelay.Text.Blank
import RandomDelay.Text.DecimalDigit

/-!
# Written durations

A written duration is a numeral and the symbol of a unit, with blanks before, between and after
them. The numeral has digits, or digits on at least one side of a point, of any script. Without a
symbol the unit is the second. `Written.ofText?` takes such a text apart and `Written.duration`
gives its meaning: the binary64 number nearest to the numeral, as an amount of the unit.
-/

set_option autoImplicit false

namespace RandomDelay

/-- A numeral without a sign: its digits as one number, and how many of them follow the point. -/
structure Numeral where
  coefficient : Nat
  places : Nat
deriving DecidableEq

namespace Numeral

/-- Numeral with the given digits before and after the point. -/
def ofDigits (whole part : List Char) : Numeral := ⟨Text.number (whole ++ part), part.length⟩

/-- Numeral at the start of a text, and the text after it. The point belongs to the numeral, also as
its last character. -/
def ofText? (text : List Char) : Option (Numeral × List Char) :=
  let whole := text.takeWhile Text.isDecimalDigit
  match text.dropWhile Text.isDecimalDigit with
  | '.' :: tail =>
    let part := tail.takeWhile Text.isDecimalDigit
    if whole.isEmpty && part.isEmpty then none
    else some (ofDigits whole part, tail.dropWhile Text.isDecimalDigit)
  | rest => if whole.isEmpty then none else some (ofDigits whole [], rest)

/-- Binary64 number nearest to a numeral. -/
def nearest (n : Numeral) : Binary64 := Binary64.nearest false n.coefficient (Nat.pow 10 n.places)

end Numeral

/-- A numeral with its unit. -/
structure Written where
  amount : Numeral
  unit : TimeUnit
deriving DecidableEq

namespace Written

/-- Unit with the given symbol, the second if there is none. -/
def unit? (symbol : List Char) : Option TimeUnit :=
  if symbol.isEmpty then some .second else TimeUnit.ofSymbol? symbol

/-- Numeral and unit of a text. -/
def ofText? (text : List Char) : Option Written := do
  let (amount, rest) ← Numeral.ofText? (text.dropWhile Text.isBlank)
  let rest := rest.dropWhile Text.isBlank
  let unit ← unit? (rest.takeWhile (!Text.isBlank ·))
  if (rest.dropWhile (!Text.isBlank ·)).all Text.isBlank then some ⟨amount, unit⟩ else none

/-- Duration that was written. -/
def duration (w : Written) : Except ArithmeticError Duration :=
  Duration.ofAmount w.unit (.float w.amount.nearest)

end Written

/-- Duration of a written text. -/
def Duration.ofText (text : String) : Except Failure Duration :=
  match Written.ofText? text.toList with
  | some written => written.duration.mapError .arithmetic
  | none => .error (.malformedDuration text)

end RandomDelay

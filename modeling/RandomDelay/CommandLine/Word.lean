import RandomDelay.Text.DecimalDigit

/-!
# Words of a command line

Every argument is read as a word: plain, the divider `--`, or an option. Options have a long name
after two dashes and may have a letter after one. A long name may be cut short as long as only one
option begins that way, and a value may follow it after `=`; a letter may be followed directly by
what belongs to it. A negative number, an argument with a space in it, and everything after the
divider are plain.
-/

set_option autoImplicit false

namespace RandomDelay.CommandLine

/-- What an option is about. -/
inductive Key where
  | help
  | delay
  | lower
  | span
  | count
  | seed
  | summary
  | noSummary
deriving DecidableEq

/-- An option: what it is about, its name, its letter, and whether it takes a value. -/
structure Switch where
  key : Key
  long : List Char
  letter : Option Char
  takesValue : Bool
deriving DecidableEq

/-- Argument of a command line. An option carries the text that follows it in the same argument,
without the equals sign, and remembers whether it was written by its letter. -/
inductive Word where
  | plain (text : List Char)
  | divider
  | option (switch : Switch) (byLetter : Bool) (attached : Option (List Char))
  | unknown
deriving DecidableEq

/-- Argument that divides options from plain words. -/
def dividerText : List Char := ['-', '-']

/-- Option with the given letter. -/
def withLetter? (switches : List Switch) (c : Char) : Option Switch :=
  switches.find? fun s => s.letter = some c

/-- Numbers with a minus sign: digits, or digits after a point with or without digits before it. A
line break may follow. -/
def isNegativeNumber (text : List Char) : Bool :=
  let text := if text.getLast? = some '\n' then text.dropLast else text
  match text with
  | '-' :: body =>
    match body.dropWhile Text.isDecimalDigit with
    | [] => !body.isEmpty
    | '.' :: places => !places.isEmpty && places.all Text.isDecimalDigit
    | _ => false
  | _ => false

namespace Word

/-- Option that is written out as the whole of the given text. -/
def spelled? (switches : List Switch) (attached : Option (List Char)) : List Char → Option Word
  | '-' :: '-' :: long => (switches.find? (·.long = long)).map fun s => .option s false attached
  | ['-', c] => (withLetter? switches c).map fun s => .option s true attached
  | _ => none

/-- Text before the first equals sign, and the text after it if there is one. -/
def splitValue (text : List Char) : List Char × Option (List Char) :=
  match text.dropWhile (· != '=') with
  | _ :: value => (text.takeWhile (· != '='), some value)
  | [] => (text, none)

/-- Option written out before an equals sign, with the value after it. -/
def assigned? (switches : List Switch) (text : List Char) : Option Word :=
  match splitValue text with
  | (name, some value) => spelled? switches (some value) name
  | (_, none) => none

/-- Options that the text may be meant for: those with the letter after a single dash, or those
whose names begin with the text after two. -/
def candidates (switches : List Switch) : List Char → List Word
  | '-' :: '-' :: text =>
    let (beginning, value) := splitValue text
    (switches.filter (beginning.isPrefixOf ·.long)).map fun s => .option s false value
  | '-' :: c :: tail =>
    (switches.filter (·.letter = some c)).map fun s => .option s true (some tail)
  | _ => []

/-- Word of an argument before the divider; none if it may be meant for more than one option. -/
def ofText? (switches : List Switch) (text : List Char) : Option Word :=
  if text.head? ≠ some '-' ∨ text.length = 1 then some (.plain text)
  else
    -- a name in full comes before the names that it begins
    match (spelled? switches none text).or (assigned? switches text) with
    | some word => some word
    | none =>
      match candidates switches text with
      | [word] => some word
      -- no option begins with a digit, so a negative number is not mistaken for one
      | [] => some (if isNegativeNumber text || text.contains ' ' then .plain text else .unknown)
      | _ => none

/-- Words of a row of arguments. -/
def ofTexts? (switches : List Switch) : List (List Char) → Option (List Word)
  | [] => some []
  | text :: rest =>
    if text = dividerText then some (.divider :: rest.map .plain)
    else do
      let word ← ofText? switches text
      let words ← ofTexts? switches rest
      return word :: words

end Word

end RandomDelay.CommandLine

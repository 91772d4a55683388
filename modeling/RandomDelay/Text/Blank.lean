/-!
# Blank characters

The characters that may surround the parts of a written duration: the white space and separators of
Unicode, with the control characters that divide files, groups, records and units.
-/

set_option autoImplicit false

namespace RandomDelay.Text

/-- First and last code point of every run of blank characters. -/
def blankRuns : List (Nat × Nat) :=
  [(0x09, 0x0d), (0x1c, 0x20), (0x85, 0x85), (0xa0, 0xa0), (0x1680, 0x1680), (0x2000, 0x200a),
   (0x2028, 0x2029), (0x202f, 0x202f), (0x205f, 0x205f), (0x3000, 0x3000)]

/-- Characters in one of the blank runs. -/
def isBlank (c : Char) : Bool :=
  blankRuns.any fun run => run.1 ≤ c.toNat && c.toNat ≤ run.2

end RandomDelay.Text

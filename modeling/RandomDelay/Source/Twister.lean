import RandomDelay.Binary64

/-!
# The Mersenne Twister

The generator MT19937: 624 words of 32 bits, from which a new generation of words is made whenever
all of them have been used, and which are tempered on the way out. `ofSeed` starts a generator from
the magnitude of an integer, split into words of 32 bits beginning with the lowest. `uniform` takes
53 bits of two outputs as a binary64 number that is at least zero and less than one.
-/

set_option autoImplicit false

namespace RandomDelay

/-- State of a generator: its words, and the number of words already used. -/
structure Twister where
  words : Vector UInt32 624
  used : Nat

namespace Twister

/-- Word `i` of a generation, counted round the end. -/
def wordAt (words : Vector UInt32 624) (i : Nat) : UInt32 :=
  words.get ⟨i % 624, Nat.mod_lt i (by decide)⟩

/-- Word that replaces word `k`: from the high bit of the word and the other bits of the next one,
and from the word 397 places on. -/
def twisted (words : Vector UInt32 624) (k : Nat) : UInt32 :=
  let y := (wordAt words k &&& 0x80000000) ||| (wordAt words (k + 1) &&& 0x7fffffff)
  wordAt words (k + 397) ^^^ (y >>> 1) ^^^ (if y &&& 1 = 0 then 0 else 0x9908b0df)

/-- Next generation of words, each made after the ones before it. -/
def regenerate (words : Vector UInt32 624) : Vector UInt32 624 :=
  Fin.foldl 624 (fun words k => words.set k.val (twisted words k.val) k.isLt) words

/-- Scrambling of a word on its way out. -/
def temper (y : UInt32) : UInt32 :=
  let y := y ^^^ (y >>> 11)
  let y := y ^^^ ((y <<< 7) &&& 0x9d2c5680)
  let y := y ^^^ ((y <<< 15) &&& 0xefc60000)
  y ^^^ (y >>> 18)

/-- Next output of a generator. -/
def next (t : Twister) : UInt32 × Twister :=
  if t.used < 624 then (temper (wordAt t.words t.used), { t with used := t.used + 1 })
  else
    let words := regenerate t.words
    (temper (wordAt words 0), ⟨words, 1⟩)

/-- Numerator of a uniform number over `2 ^ 53`: 27 bits of one output and 26 of the next. -/
def nextBits (t : Twister) : Nat × Twister :=
  let (a, t) := t.next
  let (b, t) := t.next
  ((a >>> 5).toNat * 0x4000000 + (b >>> 6).toNat, t)

/-- Next uniform number. -/
def uniform (t : Twister) : Binary64 × Twister :=
  let (n, t) := t.nextBits
  (Binary64.nearest false n 0x20000000000000, t)

/-- Bits of a word and of the word mixed with its own high bits, for the start of a generator. -/
def spread (word multiplier : UInt32) : UInt32 := (word ^^^ (word >>> 30)) * multiplier

/-- Words grown from a single one, each from the one before it. -/
def grown (first : UInt32) : Vector UInt32 624 :=
  Fin.foldl 624 (fun words k =>
    if k.val = 0 then words
    else words.set k.val (spread (wordAt words (k.val - 1)) 1812433253 + UInt32.ofNat k.val) k.isLt)
    (Vector.replicate 624 first)

/-- Words in the course of mixing in a seed, and the place of the word to be changed next. -/
structure Mixing where
  words : Vector UInt32 624
  place : Nat

/-- Change of one word with the help of the word before it. Place zero is never changed itself: at
the end of the row it takes over the last word, and the mixing goes on at place one. -/
def Mixing.step (m : Mixing) (multiplier term : UInt32) : Mixing :=
  let i := m.place % 624
  have hi : i < 624 := Nat.mod_lt m.place (by decide)
  let word := (wordAt m.words i ^^^ spread (wordAt m.words (i + 623)) multiplier) + term
  let words := m.words.set i word hi
  if i = 623 then ⟨words.set 0 word, 1⟩ else ⟨words, i + 1⟩

/-- Words of 32 bits of a number, the lowest first; zero has one word. -/
def keyWords (n : Nat) : List UInt32 :=
  UInt32.ofNat n :: if n < 0x100000000 then [] else keyWords (n / 0x100000000)

/-- Terms that mix in a key: its words, each with its place in the key, over and over until every
word of the generator and every word of the key has had its turn. -/
def keyTerms (key : Array UInt32) : List UInt32 :=
  (List.range (max 624 key.size)).map fun k =>
    let place := k % key.size
    key[place]?.getD 0 + UInt32.ofNat place

/-- Generator that starts from a key. -/
def ofKey (key : Array UInt32) : Twister :=
  let keyed :=
    (keyTerms key).foldl (fun m term => m.step 1664525 term) (⟨grown 19650218, 1⟩ : Mixing)
  -- the second pass mixes in the places alone
  let mixed := (List.range 623).foldl
    (fun m _ => m.step 1566083941 (0 - UInt32.ofNat m.place)) keyed
  -- one bit is set whatever the key is, as a state of zeros would stay one
  ⟨mixed.words.set 0 0x80000000, 624⟩

/-- Generator that starts from an integer; its sign does not matter. -/
def ofSeed (seed : Int) : Twister := ofKey (keyWords seed.natAbs).toArray

/-- There are fewer than `2 ^ 53` numerators of a uniform number. -/
theorem nextBits_lt (t : Twister) : t.nextBits.1 < 0x20000000000000 := by
  have ha : (t.next.1 >>> 5).toNat < 0x8000000 := by
    have := t.next.1.toNat_lt
    simp only [UInt32.toNat_shiftRight]
    simp [Nat.shiftRight_eq_div_pow]
    omega
  have hb : (t.next.2.next.1 >>> 6).toNat < 0x4000000 := by
    have := t.next.2.next.1.toNat_lt
    simp only [UInt32.toNat_shiftRight]
    simp [Nat.shiftRight_eq_div_pow]
    omega
  simp only [nextBits]
  omega

end Twister

end RandomDelay

/-
# The Mersenne twister

A generator of 32 bit words with a state of 624 words, and numbers below a bound made from it by
rejection: as many of the highest bits of a word as the bound has, tried again with the next word
until they are below it.  The same seed gives the same numbers everywhere.
-/

namespace DiceNotation

/-- The state of the generator: its words, and how many of them have been given out. -/
structure Twister where
  words : Array UInt32
  used : Nat

namespace Twister

/-- The number of words of the state. -/
def size : Nat := 624

/-! ## 1. Seeding -/

/-- How a word of the state follows from the one before it. -/
def mixed (word : UInt32) : UInt32 := word ^^^ (word >>> 30)

/-- The state that a single word gives. -/
def ofWord (seed : UInt32) : Array UInt32 :=
  (List.range (size - 1)).foldl
    (fun words i => words.push (1812433253 * mixed (words.getD i 0) + UInt32.ofNat (i + 1)))
    #[seed]

/-- The words 1 to 623 of the state in turn, `count` of them, going on from word `i`.  Whenever the
last one has been replaced it is copied to the front. -/
def stir (replace : Array UInt32 → (turn i : Nat) → UInt32) (words : Array UInt32) (i : Nat) :
    (turns : List Nat) → Array UInt32 × Nat
  | [] => (words, i)
  | turn :: turns =>
    let word := replace words turn i
    let words := words.setIfInBounds i word
    if i + 1 < size then stir replace words (i + 1) turns
    else stir replace (words.setIfInBounds 0 word) 1 turns

/-- The generator for a key of at least one word. -/
def ofKey (key : Array UInt32) : Twister :=
  let absorb := fun (words : Array UInt32) (turn i : Nat) =>
    let j := turn % key.size
    (words.getD i 0 ^^^ (mixed (words.getD (i - 1) 0) * 1664525)) + key.getD j 0 + UInt32.ofNat j
  let spread := fun (words : Array UInt32) (_ i : Nat) =>
    (words.getD i 0 ^^^ (mixed (words.getD (i - 1) 0) * 1566083941)) - UInt32.ofNat i
  let (words, i) := stir absorb (ofWord 19650218) 1 (List.range (max size key.size))
  let (words, _) := stir spread words i (List.range (size - 1))
  ⟨words.setIfInBounds 0 0x80000000, size⟩

/-- The number of values of a word. -/
def wordBound : Nat := 4294967296

/-- The words of a number, the lowest first. -/
def wordsOf (n : Nat) : List UInt32 :=
  if n < wordBound then [UInt32.ofNat n]
  else UInt32.ofNat (n % wordBound) :: wordsOf (n / wordBound)
termination_by n
decreasing_by
  exact Nat.div_lt_self (by unfold wordBound at *; omega) (by decide)

/-- The generator for a seed, whose sign does not matter. -/
def ofSeed (seed : Int) : Twister := ofKey (wordsOf seed.natAbs).toArray

/-! ## 2. Words -/

/-- The state after the one with the given words. -/
def regenerate (words : Array UInt32) : Array UInt32 :=
  (List.range size).foldl
    (fun words i =>
      let y := (words.getD i 0 &&& 0x80000000) ||| (words.getD ((i + 1) % size) 0 &&& 0x7fffffff)
      let twist : UInt32 := if y &&& 1 = 0 then 0 else 0x9908b0df
      words.setIfInBounds i (words.getD ((i + 397) % size) 0 ^^^ (y >>> 1) ^^^ twist))
    words

/-- How a word of the state is scrambled when it is given out. -/
def temper (word : UInt32) : UInt32 :=
  let y := word ^^^ (word >>> 11)
  let y := y ^^^ ((y <<< 7) &&& 0x9d2c5680)
  let y := y ^^^ ((y <<< 15) &&& 0xefc60000)
  y ^^^ (y >>> 18)

/-- The next word. -/
def next (t : Twister) : UInt32 × Twister :=
  if t.used < size then (temper (t.words.getD t.used 0), { t with used := t.used + 1 })
  else
    let words := regenerate t.words
    (temper (words.getD 0 0), ⟨words, 1⟩)

/-! ## 3. Numbers below a bound -/

/-- The next number below `n`, from at most `words` words, and how many of these are left.  The
bound has at most 32 bits. -/
def below? (n : Nat) : (words : Nat) → Twister → Option (Fin n × Twister × Nat)
  | 0, _ => none
  | words + 1, t =>
    let (word, t) := t.next
    let candidate := word.toNat >>> (31 - n.log2)
    if h : candidate < n then some (⟨candidate, h⟩, t, words) else below? n words t

end Twister

end DiceNotation

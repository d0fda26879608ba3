/-
# Where rolls come from

A source answers the question for a number below a bound, again and again, until it comes to its
end.  It is either a list of rolls that was written down before, or a generator.  A generator too
ends at last, after more words than any evaluation reaches, so that every source has a number of
answers that it cannot exceed.
-/
import DiceNotation.Chance.Twister

namespace DiceNotation

/-- A source of rolls. -/
inductive Source where
  /-- Rolls that are answered in order, each as its remainder by the bound. -/
  | script (rolls : List Nat)
  /-- A generator, and how many words may still be taken from it. -/
  | twister (generator : Twister) (words : Nat)

namespace Source

/-- The words that may be taken from a new generator. -/
def generatorWords : Nat := 4611686018427387904

/-- The source for a seed. -/
def ofSeed (seed : Int) : Source := twister (Twister.ofSeed seed) generatorWords

/-- The seed that is used where a fixed one is wanted and none is given. -/
def standardSeed : Int := 0x909090

/-- The source for a seed, if one is given, else for the standard seed. -/
def ofSeed? (seed : Option Int) : Source := ofSeed (seed.getD standardSeed)

/-- A source that comes to its end after at most `words` words, or rolls. -/
def limit (words : Nat) : Source → Source
  | script rolls => script (rolls.take words)
  | twister generator left => twister generator (min words left)

/-- A number of draws that a source cannot exceed. -/
def remaining : Source → Nat
  | script rolls => rolls.length
  | twister _ words => words

/-- The next number below `n`, and the source behind it; nothing at the end of the source. -/
def draw? (n : Nat) (pos : 0 < n) : Source → Option (Fin n × Source)
  | script [] => none
  | script (roll :: rolls) => some (⟨roll % n, Nat.mod_lt roll pos⟩, script rolls)
  | twister generator words =>
    (generator.below? n words).map fun (i, generator, words) => (i, twister generator words)

theorem draw?_remaining_lt {n : Nat} {pos : 0 < n} {s s' : Source} {i : Fin n}
    (h : s.draw? n pos = some (i, s')) : s'.remaining < s.remaining := by
  have below : ∀ (words : Nat) (t t' : Twister) (i : Fin n) (w : Nat),
      t.below? n words = some (i, t', w) → w < words := by
    intro words
    induction words with
    | zero => intro t t' i w h; simp [Twister.below?] at h
    | succ words ih =>
      intro t t' i w h
      simp only [Twister.below?] at h
      split at h
      · simp only [Option.some.injEq, Prod.mk.injEq] at h
        omega
      · have := ih _ _ _ _ h
        omega
  match s with
  | script [] => simp [draw?] at h
  | script (roll :: rolls) =>
    simp only [draw?, Option.some.injEq, Prod.mk.injEq] at h
    simp [← h.2, remaining]
  | twister generator words =>
    simp only [draw?, Option.map_eq_some_iff] at h
    obtain ⟨⟨j, t', w⟩, hb, he⟩ := h
    simp only [Prod.mk.injEq] at he
    have := below _ _ _ _ _ hb
    simp [← he.2, remaining, this]

end Source

end DiceNotation

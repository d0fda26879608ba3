/-
# Code spans hold what they enclose

A chat ends a code span at the first run of backticks that is as long as the one it began with.  In
a span made of any text that is the last run: those in between consist of one backtick each, and
there are two at least on either side (`codeSpan_encloses_text`).

The runs of a text are those of its parts, put one behind the other, where no backtick stands on
both sides of a seam (`runLengths_append`).  Behind each backtick of the enclosed text there is a
space of no width, and one is put in front if there would be a seam with the opening backticks.
-/
import Mathlib.Data.List.SplitBy
import DiceNotation.Chat.Reply

namespace DiceNotation

/-! ## 1. Runs -/

/-- The lengths of the maximal runs of a character in a text, from left to right: neighbours belong
together if both are that character. -/
def runLengths (c : Char) (text : List Char) : List Nat :=
  ((text.splitBy fun x y => x == c && y == c).filter (·.head? == some c)).map List.length

section Runs

variable {c : Char}

/-- A run goes on over a seam only if the character stands on both sides of it. -/
theorem runLengths_append {l m : List Char} (h : l.getLast? = some c → m.head? ≠ some c) :
    runLengths c (l ++ m) = runLengths c l ++ runLengths c m := by
  have hseam : ∀ x ∈ l.getLast?, ∀ y ∈ m.head?, (x == c && y == c) = false := by
    intro x hx y hy
    rw [Bool.and_eq_false_iff, beq_eq_false_iff_ne, beq_eq_false_iff_ne]
    by_contra hboth
    obtain ⟨rfl, rfl⟩ : x = c ∧ y = c := by simpa using hboth
    exact h hx hy
  unfold runLengths
  rw [List.splitBy_append hseam, List.filter_append, List.map_append]

@[simp] theorem runLengths_nil : runLengths c [] = [] := rfl

theorem runLengths_other {x : Char} (h : x ≠ c) : runLengths c [x] = [] := by
  simp [runLengths, List.splitBy, List.splitBy.loop, h]

theorem runLengths_replicate {n : Nat} (h : 0 < n) : runLengths c (List.replicate n c) = [n] := by
  have hne : List.replicate n c ≠ [] := by simp [h.ne']
  have hchain : (List.replicate n c).IsChain fun x y => (x == c && y == c) = true :=
    List.isChain_replicate_of_rel n (by simp)
  rw [runLengths, List.splitBy_of_isChain hne hchain]
  simp [List.head?_replicate, h.ne']

/-- A character that is not the one of the runs adds none. -/
theorem runLengths_cons_other {x : Char} (h : x ≠ c) (text : List Char) :
    runLengths c (x :: text) = runLengths c text := by
  have hseam : [x].getLast? = some c → text.head? ≠ some c := by
    intro hlast
    exact absurd (Option.some.inj hlast) h
  rw [← List.singleton_append, runLengths_append hseam, runLengths_other h, List.nil_append]

/-- A text between two runs, if it does not make them longer. -/
theorem runLengths_enclosed {n : Nat} {inner : List Char} (hn : 0 < n) (hinner : inner ≠ [])
    (hhead : inner.head? ≠ some c) (hlast : inner.getLast? ≠ some c) :
    runLengths c (List.replicate n c ++ inner ++ List.replicate n c) =
      n :: (runLengths c inner ++ [n]) := by
  have hopen : runLengths c (List.replicate n c ++ inner) = n :: runLengths c inner := by
    rw [runLengths_append fun _ => hhead, runLengths_replicate hn, List.singleton_append]
  have hclose : (List.replicate n c ++ inner).getLast? ≠ some c := by
    rwa [List.getLast?_append_of_ne_nil _ hinner]
  rw [runLengths_append fun h => absurd h hclose, hopen, runLengths_replicate hn, List.cons_append]

end Runs

/-! ## 2. The enclosed text -/

/-- A text with a space of no width behind each backtick. -/
def spaceBackticks (text : List Char) : List Char :=
  text.flatMap fun c => if c = backtick then [c, zeroWidthSpace] else [c]

theorem breakBackticks_eq (text : List Char) : breakBackticks text =
    if text.head? = some backtick then zeroWidthSpace :: spaceBackticks text
    else spaceBackticks text := rfl

@[simp] theorem spaceBackticks_nil : spaceBackticks [] = [] := rfl

theorem spaceBackticks_backtick (text : List Char) :
    spaceBackticks (backtick :: text) = backtick :: zeroWidthSpace :: spaceBackticks text := rfl

theorem spaceBackticks_other {c : Char} (h : c ≠ backtick) (text : List Char) :
    spaceBackticks (c :: text) = c :: spaceBackticks text := by
  simp [spaceBackticks, h]

theorem zeroWidthSpace_ne_backtick : zeroWidthSpace ≠ backtick := by decide

theorem head?_spaceBackticks (text : List Char) : (spaceBackticks text).head? = text.head? := by
  match text with
  | [] => rfl
  | c :: text =>
    by_cases hc : c = backtick
    · rw [hc, spaceBackticks_backtick, List.head?_cons, List.head?_cons]
    · rw [spaceBackticks_other hc, List.head?_cons, List.head?_cons]

theorem getLast?_cons_ne {c x : Char} {text : List Char} (hx : x ≠ c)
    (h : text.getLast? ≠ some c) : (x :: text).getLast? ≠ some c := by
  rw [List.getLast?_cons]
  cases hlast : text.getLast? with
  | none => simpa using hx
  | some y =>
    rw [hlast] at h
    exact h

/-- No backtick is at the end. -/
theorem getLast?_spaceBackticks (text : List Char) :
    (spaceBackticks text).getLast? ≠ some backtick := by
  induction text with
  | nil => nofun
  | cons c text ih =>
    by_cases hc : c = backtick
    · rw [hc, spaceBackticks_backtick, List.getLast?_cons_cons]
      exact getLast?_cons_ne zeroWidthSpace_ne_backtick ih
    · rw [spaceBackticks_other hc]
      exact getLast?_cons_ne hc ih

/-- The backticks of a text become runs of one. -/
theorem runLengths_spaceBackticks (text : List Char) :
    runLengths backtick (spaceBackticks text) = List.replicate (text.count backtick) 1 := by
  induction text with
  | nil => rfl
  | cons c text ih =>
    by_cases hc : c = backtick
    · have hseam : [backtick].getLast? = some backtick →
          (zeroWidthSpace :: spaceBackticks text).head? ≠ some backtick := by
        intro _ hhead
        exact zeroWidthSpace_ne_backtick (Option.some.inj hhead)
      have hone : runLengths backtick [backtick] = [1] := runLengths_replicate Nat.one_pos
      rw [hc, spaceBackticks_backtick, ← List.singleton_append, runLengths_append hseam, hone,
        runLengths_cons_other zeroWidthSpace_ne_backtick, ih, List.count_cons_self,
        List.replicate_succ, List.singleton_append]
    · rw [spaceBackticks_other hc, runLengths_cons_other hc, ih, List.count_cons_of_ne hc]

theorem length_spaceBackticks (text : List Char) :
    (spaceBackticks text).length = text.length + text.count backtick := by
  induction text with
  | nil => rfl
  | cons c text ih =>
    by_cases hc : c = backtick
    · rw [hc, spaceBackticks_backtick, List.count_cons_self]
      simp only [List.length_cons, ih]
      omega
    · rw [spaceBackticks_other hc, List.count_cons_of_ne hc]
      simp only [List.length_cons, ih]
      omega

/-- Nothing but spaces of no width is added. -/
theorem filter_spaceBackticks (text : List Char) :
    (spaceBackticks text).filter (· != zeroWidthSpace) = text.filter (· != zeroWidthSpace) := by
  induction text with
  | nil => rfl
  | cons c text ih =>
    by_cases hc : c = backtick
    · rw [hc, spaceBackticks_backtick, List.filter_cons, List.filter_cons, List.filter_cons, ih]
      rfl
    · rw [spaceBackticks_other hc, List.filter_cons, List.filter_cons, ih]

/-! ## 3. Code spans -/

section Broken

variable (text : List Char)

theorem breakBackticks_ne_nil (h : text ≠ []) : breakBackticks text ≠ [] := by
  rw [breakBackticks_eq]
  split
  · exact List.cons_ne_nil _ _
  · intro hnil
    have hhead := head?_spaceBackticks text
    rw [hnil] at hhead
    exact h (List.head?_eq_none_iff.mp hhead.symm)

theorem head?_breakBackticks : (breakBackticks text).head? ≠ some backtick := by
  rw [breakBackticks_eq]
  split
  · intro h
    exact zeroWidthSpace_ne_backtick (Option.some.inj h)
  · next h => rwa [head?_spaceBackticks]

theorem getLast?_breakBackticks : (breakBackticks text).getLast? ≠ some backtick := by
  rw [breakBackticks_eq]
  split
  · exact getLast?_cons_ne zeroWidthSpace_ne_backtick (getLast?_spaceBackticks text)
  · exact getLast?_spaceBackticks text

theorem runLengths_breakBackticks :
    runLengths backtick (breakBackticks text) = List.replicate (text.count backtick) 1 := by
  rw [breakBackticks_eq]
  split
  · rw [runLengths_cons_other zeroWidthSpace_ne_backtick, runLengths_spaceBackticks]
  · exact runLengths_spaceBackticks text

theorem filter_breakBackticks :
    (breakBackticks text).filter (· != zeroWidthSpace) = text.filter (· != zeroWidthSpace) := by
  rw [breakBackticks_eq]
  split
  · rw [List.filter_cons_of_neg (by simp), filter_spaceBackticks]
  · exact filter_spaceBackticks text

/-- How long a text is when its backticks are broken up. -/
theorem length_breakBackticks :
    (breakBackticks text).length =
      text.length + text.count backtick + if text.head? = some backtick then 1 else 0 := by
  rw [breakBackticks_eq]
  split
  · rw [List.length_cons, length_spaceBackticks]
  · rw [length_spaceBackticks, Nat.add_zero]

end Broken

theorem toList_codeSpan (text : String) (big : Bool) :
    (codeSpan text big).toList = codeFence big ++ breakBackticks text.toList ++ codeFence big :=
  String.toList_ofList

/-- **A code span ends behind the text that it encloses.**  Its runs of backticks are the two
backticks in front, or three if it is big, then a run of one for each backtick of the text, and then
as many as in front.  What they enclose is the text, but for spaces of no width. -/
theorem codeSpan_encloses_text (text : String) (big : Bool) (htext : text ≠ "") :
    let fence := if big then 3 else 2
    ∃ inner, (codeSpan text big).toList =
        List.replicate fence backtick ++ inner ++ List.replicate fence backtick ∧
      runLengths backtick (codeSpan text big).toList =
        fence :: (List.replicate (text.toList.count backtick) 1 ++ [fence]) ∧
      inner.filter (· != zeroWidthSpace) = text.toList.filter (· != zeroWidthSpace) := by
  intro fence
  have hfence : 0 < fence := by
    unfold fence
    split <;> decide
  have hspan : (codeSpan text big).toList =
      List.replicate fence backtick ++ breakBackticks text.toList ++
        List.replicate fence backtick := toList_codeSpan text big
  have hchars : text.toList ≠ [] := by
    intro hnil
    exact htext (String.toList_eq_nil_iff.mp hnil)
  refine ⟨breakBackticks text.toList, hspan, ?_, filter_breakBackticks _⟩
  rw [hspan, runLengths_enclosed hfence (breakBackticks_ne_nil _ hchars) (head?_breakBackticks _)
    (getLast?_breakBackticks _), runLengths_breakBackticks]

/-- A text of backticks, one of them with a space of no width behind it. -/
theorem codeSpan_encloses_text_backticks :
    let text := "\x60\x60\u200b\x60x"
    text ≠ "" ∧ runLengths backtick (codeSpan text true).toList = [3, 1, 1, 1, 3] ∧
      ∃ inner, (codeSpan text true).toList =
          List.replicate 3 backtick ++ inner ++ List.replicate 3 backtick ∧
        inner.filter (· != zeroWidthSpace) = [backtick, backtick, backtick, 'x'] := by
  intro text
  have htext : text ≠ "" := by decide
  have hcount : text.toList.count backtick = 3 := by decide
  have hfilter : text.toList.filter (· != zeroWidthSpace) = [backtick, backtick, backtick, 'x'] :=
    by decide
  obtain ⟨inner, hspan, hruns, hinner⟩ := codeSpan_encloses_text text true htext
  rw [hcount] at hruns
  exact ⟨htext, hruns, inner, hspan, hinner.trans hfilter⟩

end DiceNotation

/-
# A text between parentheses

A text that has been cut into sound tokens is cut into the same ones where a `)` stands behind it,
and the `)` is a token of its own.  A piece ends where it does because of the character behind it,
if at all, and a `)` prolongs nothing: it belongs to no run, and no operator has it as its second
character.  Only a string that is not closed would swallow it, and that is no sound token.

What lies behind a NUL that ends the input is not part of the expression.  `Token.upToEnd` is the
text without it.
-/
import DiceNotation.Proofs.Grammar.Located
import DiceNotation.Proofs.Token.Partition

namespace DiceNotation

/-! ## 1. What stands behind a piece -/

/-- No operator has a `)` as its second character. -/
theorem Op.text_ne_closed (o : Op) (c : Char) : o.text.toList ≠ [c, ')'] := by
  cases o <;> simp [Op.text]

/-- An operator is the longest one as well where the text goes on in the same way or with a `)`. -/
theorem longest_followed {o : Op} {rest rest' : List Char}
    (hlongest : ∀ o' : Op, o'.text.toList <+: o.text.toList ++ rest →
      o'.text.toList.length ≤ o.text.toList.length)
    (hrest : ∀ c ∈ rest'.head?, c ∈ rest.head? ∨ c = ')') (o' : Op)
    (ho' : o'.text.toList <+: o.text.toList ++ rest') :
    o'.text.toList.length ≤ o.text.toList.length := by
  rcases o.length_text with hone | htwo
  · rcases o'.length_text with hone' | htwo'
    · exact Nat.le_of_eq (hone'.trans hone.symm)
    · -- its second character is the one behind `o`
      obtain ⟨c, hc⟩ := List.length_eq_one_iff.mp hone
      obtain ⟨c', d, hcd⟩ := List.length_eq_two.mp htwo'
      rw [hc, hcd, List.singleton_append, List.cons_prefix_cons] at ho'
      obtain ⟨rfl, more, rfl⟩ := ho'
      rcases hrest d rfl with hd | rfl
      · obtain ⟨more', rfl⟩ := List.head?_eq_some_iff.mp hd
        refine hlongest o' ?_
        rw [hc, hcd]
        exact ⟨more', rfl⟩
      · exact absurd hcd (o'.text_ne_closed c')
  · rcases o'.length_text with hone' | htwo' <;> omega

/-- A run ends as well where the text goes on in the same way or with a `)`. -/
theorem Run.followed {p : Char → Bool} {cs rest rest' : List Char} (h : Run p cs rest)
    (hclose : p ')' = false) (hrest : ∀ c ∈ rest'.head?, c ∈ rest.head? ∨ c = ')') :
    Run p cs rest' where
  ne_nil := h.ne_nil
  all := h.all
  ends c hc := by
    rcases hrest c hc with hmem | rfl
    · exact h.ends c hmem
    · exact hclose

/-- A piece of a sound token, or of blanks, is cut off as well where the text goes on in the same
way or with a `)`. -/
theorem FirstPiece.followed {piece rest rest' : List Char} {token : Option Token}
    (h : FirstPiece piece rest token) (hwell : ∀ t ∈ token, t.isMalformed = false)
    (hrest : ∀ c ∈ rest'.head?, c ∈ rest.head? ∨ c = ')') : FirstPiece piece rest' token := by
  cases h with
  | blanks h => exact .blanks (h.followed (by decide) hrest)
  | number h hlength hvalue => exact .number (h.followed (by decide) hrest) hlength hvalue
  | word h => exact .word (h.followed (by decide) hrest)
  | character c => exact .character c rest'
  | string h => exact .string h rest'
  | operator hlongest => exact .operator (longest_followed hlongest hrest)
  | overlong => exact absurd (hwell _ rfl) nofun
  | unclosed => exact absurd (hwell _ rfl) nofun
  | stray => exact absurd (hwell _ rfl) nofun

/-! ## 2. The text of an expression -/

theorem Splits.pieces_eq {text left : List Char} {parts : List (List Char × Option Token)}
    (h : Splits text parts left) : pieces text = parts.map Prod.fst := by
  induction h with
  | ends h =>
    rcases h with rfl | hnul
    · rw [pieces]
      rfl
    · obtain ⟨rest, rfl⟩ := List.head?_eq_some_iff.mp hnul
      rw [pieces, if_pos (beq_self_eq_true _)]
      rfl
  | part htext hpiece h ih =>
    obtain ⟨c, cs, rfl, hnul, hcut, -⟩ := hpiece.cutsOff
    rw [← htext, List.cons_append, pieces, if_neg (by simpa using hnul), hcut, ih]
    rfl

/-- The text in front of the NUL that ends it, if there is one. -/
def Token.upToEnd (text : String) : String := String.ofList (pieces text.toList).flatten

/-- A text without a NUL goes on to its end. -/
theorem Token.upToEnd_eq_self {text : String} (h : '\x00' ∉ text.toList) : upToEnd text = text := by
  obtain ⟨parts, left, hsplits⟩ := exists_splits text.toList
  have hflatten := hsplits.flatten
  have hleft : left = [] := by
    refine hsplits.left_cases.resolve_right fun hnul => h ?_
    rw [← hflatten]
    exact List.mem_append_right _ (List.mem_of_mem_head? hnul)
  rw [hleft, List.append_nil] at hflatten
  rw [upToEnd, hsplits.pieces_eq, hflatten, String.ofList_toList]

/-- The tokens of a text with a `)` behind it. -/
theorem Splits.tokensOf_closed {text left : List Char} {parts : List (List Char × Option Token)}
    (h : Splits text parts left) (hwell : ∀ t ∈ tokensOf text, t.isMalformed = false) :
    tokensOf ((parts.map Prod.fst).flatten ++ [')']) = tokensOf text ++ [.op .closeParen] := by
  rw [h.tokensOf_eq] at hwell ⊢
  induction h with
  | ends =>
    have hclose : tokensOf [')'] = .op .closeParen :: tokensOf [] :=
      tokensOf_op (o := .closeParen) rfl nofun
    simpa using hclose
  | @part text piece rest left token parts htext hpiece h ih =>
    have hhead : ∀ c ∈ ((parts.map Prod.fst).flatten ++ [')']).head?,
        c ∈ rest.head? ∨ c = ')' := by
      intro c hc
      rw [← h.flatten]
      cases hflat : (parts.map Prod.fst).flatten with
      | nil =>
        rw [hflat] at hc
        exact .inr (Option.some.inj hc).symm
      | cons d ds =>
        rw [hflat] at hc
        exact .inl hc
    have htoken : ∀ t ∈ token, t.isMalformed = false := fun t ht =>
      hwell t (List.mem_filterMap.mpr ⟨(piece, token), List.mem_cons_self, ht⟩)
    have hmore : ∀ t ∈ parts.filterMap Prod.snd, t.isMalformed = false := by
      intro t ht
      obtain ⟨part, hpart, hsnd⟩ := List.mem_filterMap.mp ht
      exact hwell t (List.mem_filterMap.mpr ⟨part, List.mem_cons_of_mem _ hpart, hsnd⟩)
    have hcut := (hpiece.followed htoken hhead).cutsOff
    rw [List.map_cons, List.flatten_cons, List.append_assoc, hcut.tokensOf_append, ih hmore,
      List.filterMap_cons]
    cases token <;> rfl

/-- **A text between parentheses** has the tokens of the text between the two parentheses, if all of
them are sound. -/
theorem tokensOf_enclosed {text : String} (hwell : ∀ t ∈ Token.ofText text, t.isMalformed = false) :
    tokensOf ('(' :: ((Token.upToEnd text).toList ++ [')'])) =
      .op .openParen :: (Token.ofText text ++ [.op .closeParen]) := by
  obtain ⟨parts, left, hsplits⟩ := exists_splits text.toList
  rw [tokensOf_lone (o := .openParen) rfl (by simp), Token.upToEnd, String.toList_ofList,
    hsplits.pieces_eq, hsplits.tokensOf_closed hwell, ofText_eq_tokensOf]

end DiceNotation

/-
# Cutting a text into tokens

A text is cut from left to right into **pieces**: a run of blanks, of digits or of letters, a quoted
character, a quoted string, an operator, or one character that fits nothing else.  A piece is as
long as its kind allows.  The cutting ends with the text, or at a NUL that stands where a piece
would begin; a NUL inside quotes is text like any other.

`pieces` does the cutting and `Token.ofPiece?` says which token a piece stands for: none for blanks,
one for anything else.  That no character is lost is `splitPiece_append`.
-/
import DiceNotation.Token

namespace DiceNotation

/-! ## 1. Pieces -/

/-- The blanks of the notation, all of them ASCII. -/
def isSpace (c : Char) : Bool :=
  c == ' ' || c == '\t' || c == '\r' || c == '\n' || c == '\x0c' || c == '\x0b'

/-- The characters of names and of words such as `kh`: ASCII letters and the underscore. -/
def isWordChar (c : Char) : Bool :=
  c.isAlpha || c == '_'

/-- The operators of two characters. -/
def isOpPair (c d : Char) : Bool :=
  Op.all.any fun o => o.text.toList == [c, d]

/-- Splits a double quoted text, whose opening quote `q` has been seen, behind its closing quote.
Without a closing quote it is the whole rest. -/
def splitString (q : Char) (rest : List Char) : List Char × List Char :=
  let content := rest.takeWhile (· != q)
  match rest.dropWhile (· != q) with
  | [] => (q :: content, [])
  | close :: more => (q :: (content ++ [close]), more)

/-- Splits the text `c :: rest` behind its first piece. -/
def splitPiece (c : Char) (rest : List Char) : List Char × List Char :=
  if isSpace c then (c :: rest.takeWhile isSpace, rest.dropWhile isSpace)
  else if c.isDigit then (c :: rest.takeWhile Char.isDigit, rest.dropWhile Char.isDigit)
  else if isWordChar c then (c :: rest.takeWhile isWordChar, rest.dropWhile isWordChar)
  else if c == '"' then splitString c rest
  else if c == '\'' then
    match rest with
    | x :: '\'' :: more => ([c, x, '\''], more)
    | _ => ([c], rest)
  else
    match rest with
    | d :: more => if isOpPair c d then ([c, d], more) else ([c], rest)
    | [] => ([c], [])

theorem splitString_append (q : Char) (rest : List Char) :
    (splitString q rest).1 ++ (splitString q rest).2 = q :: rest := by
  have h := List.takeWhile_append_dropWhile (p := (· != q)) (l := rest)
  unfold splitString
  split
  · next hd => rw [hd, List.append_nil] at h; simp [h]
  · next hd => rw [hd] at h; simp [h]

/-- No character is lost or moved when a piece is cut off. -/
theorem splitPiece_append (c : Char) (rest : List Char) :
    (splitPiece c rest).1 ++ (splitPiece c rest).2 = c :: rest := by
  unfold splitPiece
  split; · simp
  split; · simp
  split; · simp
  split; · exact splitString_append c rest
  split
  · split <;> simp
  · split
    · split <;> simp
    · simp

theorem splitPiece_ne_nil (c : Char) (rest : List Char) : (splitPiece c rest).1 ≠ [] := by
  unfold splitPiece splitString
  split; · simp
  split; · simp
  split; · simp
  split
  · split <;> simp
  split
  · split <;> simp
  · split
    · split <;> simp
    · simp

/-- Every piece takes at least one character, so the cutting comes to an end. -/
theorem splitPiece_rest_length (c : Char) (rest : List Char) :
    (splitPiece c rest).2.length ≤ rest.length := by
  have happ := congrArg List.length (splitPiece_append c rest)
  have hpos := List.length_pos_iff.mpr (splitPiece_ne_nil c rest)
  simp only [List.length_append, List.length_cons] at happ
  omega

/-- The pieces of a text up to the NUL that ends it, if there is one. -/
def pieces : List Char → List (List Char)
  | [] => []
  | c :: rest =>
    if c == '\x00' then []
    else (splitPiece c rest).1 :: pieces (splitPiece c rest).2
termination_by text => text.length
decreasing_by
  have := splitPiece_rest_length c rest
  simp only [List.length_cons]
  omega

/-! ## 2. The token of a piece -/

namespace Token

/-- A run of digits is a number if it has at most twenty digits and its value fits. -/
def ofDigits (digits : List Char) : Token :=
  if digits.length ≤ 20 ∧ Nat.ofDigitChars 10 digits 0 ≤ maxNumber then
    number (Nat.ofDigitChars 10 digits 0)
  else
    malformed (String.ofList digits)

/-- A piece that starts with a double quote is a string if it ends with another one. -/
def ofQuoted (piece inside : List Char) : Token :=
  if inside.getLast? = some '"' then string (String.ofList inside.dropLast)
  else malformed (String.ofList piece)

/-- The token that a piece stands for; blanks stand for none. -/
def ofPiece? : List Char → Option Token
  | [] => none
  | c :: rest =>
    if isSpace c then none
    else if c.isDigit then some (ofDigits (c :: rest))
    else if isWordChar c then some (word (String.ofList (c :: rest)))
    else if c == '"' then some (ofQuoted (c :: rest) rest)
    else if c == '\'' then
      match rest with
      | x :: _ => some (char x)
      | [] => some (stray c)
    else
      match Op.ofText? (String.ofList (c :: rest)) with
      | some o => some (op o)
      | none => some (stray c)

/-- The tokens of a text, without the end mark. -/
def ofText (text : String) : List Token :=
  (pieces text.toList).filterMap ofPiece?

end Token

end DiceNotation

/-
# Replies

What a chat is answered.  A result is shown behind the expression as it was understood, and an
answer that does not fit into one message is cut, with a note that says how much is missing.

Code is shown between runs of backticks.  An invisible space follows every backtick of the text, and
goes in front of the text if that starts with a backtick, so that no run of backticks in the text is
as long as the ones around it and the text cannot end the span.

How a chat writes formatting as plain text is its own affair: `resultLine` is given a function that
escapes a text.
-/

namespace DiceNotation

/-! ## 1. Code spans -/

/-- The mark around code. -/
def backtick : Char := '\x60'

/-- A space of no width. -/
def zeroWidthSpace : Char := '\u200b'

/-- A text with its runs of backticks broken up. -/
def breakBackticks (text : List Char) : List Char :=
  let spaced := text.flatMap fun c => if c = backtick then [c, zeroWidthSpace] else [c]
  if text.head? = some backtick then zeroWidthSpace :: spaced else spaced

/-- The backticks on either side: two around a span, three around a block. -/
def codeFence (big : Bool) : List Char := List.replicate (if big then 3 else 2) backtick

/-- A text as code, in a span, or in a block if it is `big`. -/
def codeSpan (text : String) (big : Bool := false) : String :=
  String.ofList (codeFence big ++ breakBackticks text.toList ++ codeFence big)

/-! ## 2. Messages -/

/-- The most characters of a message. -/
def messageLimit : Nat := 1900

/-- The note at the end of a message that lacks `missing` characters. -/
def truncationNote (missing : Int) : String :=
  s!" ... (message too long, truncated {missing} characters.)"

/-- The number of characters that are kept of `length`, if there are more than `limit`.  A limit
below zero counts from the end. -/
def keptLength (length : Nat) (limit : Int) : Nat :=
  if limit < 0 then (length + limit).toNat else limit.toNat

/-- A text cut to `limit` characters if it has more. -/
def truncate (text : String) (limit : Int := messageLimit) : String :=
  if text.length ≤ limit then text
  else
    String.ofList (text.toList.take (keptLength text.length limit)) ++
      truncationNote (text.length - limit)

/-- An expression and its result on one line.  `escape` keeps the chat from reading the result as
formatting. -/
def resultLine (escape : String → String) (description result : String) : String :=
  s!"{codeSpan description} ⇒ **{escape result}**"

/-- The reply to a text that cannot be evaluated. -/
def errorReply (message : String) : String :=
  "evaluation error:\n" ++ codeSpan message true

end DiceNotation

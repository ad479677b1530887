/-
From text to tokens. At each place the longest lexeme is taken: a run
of blanks, a comment to the end of its line, a word, a quoted text that
closes on its line, or a mark. A character that starts none of these is
an invalid token of its own; a quote that is not closed on its line
makes one invalid token of the rest of the line.

Nothing is dropped: each lexeme is non-empty and what it leaves is the
text behind it (`Lexeme.next_append`), so the lexemes of a text put
together are the text again (`Token.lex`). Two steps of their own take
from them: tokens are handed out only as far as there are offsets
(`Token.scan`), and trivia are dropped (`Token.significant`).
-/
import Purview.Token

namespace Purview

/-- A piece split off the front of a text. -/
structure Lexeme where
  kind : TokenKind
  chars : List Char
  rest : List Char
deriving DecidableEq

namespace Lexeme

/-- The characters that separate tokens. -/
def isBlank (c : Char) : Bool :=
  c = ' ' || c = '\t' || c = '\r' || c = '\n'

/-- The characters that start a word. -/
def isWordStart (c : Char) : Bool :=
  c.isAlpha || c = '_'

/-- The characters that continue a word. -/
def isWordPart (c : Char) : Bool :=
  c.isAlphanum || c = '_'

/-- What follows an opening quote up to the closing one: whether there
is one on the line, the characters taken, and those left. A backslash
takes the next character of the line with it. -/
def quotedTail : List Char → Bool × List Char × List Char
  | [] => (false, [], [])
  | c :: cs =>
    if c = '\n' then (false, [], c :: cs)
    else if c = '"' then (true, [c], cs)
    else if c = '\\' then
      match cs with
      | [] => (false, [c], [])
      | d :: ds =>
        if d = '\n' then (false, [c], d :: ds)
        else
          let tail := quotedTail ds
          (tail.1, c :: d :: tail.2.1, tail.2.2)
    else
      let tail := quotedTail cs
      (tail.1, c :: tail.2.1, tail.2.2)

/-- The first lexeme of the text `c :: cs`. -/
def next (c : Char) (cs : List Char) : Lexeme :=
  if isBlank c then
    ⟨.blank, c :: cs.takeWhile isBlank, cs.dropWhile isBlank⟩
  else if isWordStart c then
    let word := c :: cs.takeWhile isWordPart
    ⟨.ofWord (String.ofList word), word, cs.dropWhile isWordPart⟩
  else if c = '"' then
    let tail := quotedTail cs
    ⟨if tail.1 then .quoted else .invalid, c :: tail.2.1, tail.2.2⟩
  else if c = '/' ∧ cs.head? = some '/' then
    ⟨.comment, c :: cs.takeWhile (· ≠ '\n'), cs.dropWhile (· ≠ '\n')⟩
  else if c = '{' then ⟨.openBrace, [c], cs⟩
  else if c = '}' then ⟨.closeBrace, [c], cs⟩
  else if c = ';' then ⟨.semicolon, [c], cs⟩
  else if c = '=' then ⟨.equals, [c], cs⟩
  else ⟨.invalid, [c], cs⟩

-- ================================================== nothing is dropped

/-- Nothing behind the quote is lost. -/
theorem quotedTail_append (cs : List Char) :
    (quotedTail cs).2.1 ++ (quotedTail cs).2.2 = cs := by
  fun_induction quotedTail cs <;> simp_all +zetaDelta

/-- A token and the rest make up the text. -/
theorem next_append (c : Char) (cs : List Char) :
    (next c cs).chars ++ (next c cs).rest = c :: cs := by
  unfold next
  repeat' split
  all_goals simp [List.takeWhile_append_dropWhile, quotedTail_append]

/-- No token is empty. -/
theorem next_chars_ne_nil (c : Char) (cs : List Char) :
    (next c cs).chars ≠ [] := by
  unfold next
  repeat' split
  all_goals simp

/-- So scanning comes to an end. -/
theorem length_next_rest (c : Char) (cs : List Char) :
    (next c cs).rest.length < (c :: cs).length := by
  have happ := congrArg List.length (next_append c cs)
  have hpos := List.length_pos_iff.2 (next_chars_ne_nil c cs)
  simp only [List.length_append] at happ
  omega

end Lexeme

namespace Token

/-- All tokens of a text that starts at some byte, trivia included. -/
def scanFrom (start : Nat) : (text : List Char) → List Token
  | [] => []
  | c :: cs =>
    let lexeme := Lexeme.next c cs
    let token : Token := ⟨lexeme.kind, start, String.ofList lexeme.chars⟩
    token :: scanFrom token.span.stop lexeme.rest
termination_by text => text.length
decreasing_by exact Lexeme.length_next_rest c cs

/-- All tokens of a text as the patterns give them, trivia included. To
the tokenizer no text is too long. -/
def lex (text : String) : List Token :=
  scanFrom 0 text.toList

/-- Whether a token has an extent: one that ends behind the last offset
has none. -/
def fits (t : Token) : Bool :=
  t.span.stop < Span.limit

/-- The tokens of a text that can be handed out, trivia included: the
iterator over the tokenizer, which ends in front of the first token that
has no extent. -/
def scan (text : String) : List Token :=
  (lex text).takeWhile fits

/-- The tokens of a text that mean something. -/
def significant (text : String) : List Token :=
  (scan text).filter fun t => !t.kind.isTrivia

end Token

end Purview

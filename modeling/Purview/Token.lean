/-
Tokens of document text. The kinds are closed: two kinds of trivia, the
words of the language, names, quoted text, four marks, and `invalid`
for whatever else stands in a text, so that every text has tokens.
-/
import Purview.Text.Span

namespace Purview

/-- The kinds of tokens. -/
inductive TokenKind where
  | blank
  | comment
  | project
  | profile
  | tool
  | depends
  | source
  | definition
  | reference
  | duration
  | name
  | quoted
  | openBrace
  | closeBrace
  | semicolon
  | equals
  | invalid
deriving DecidableEq

namespace TokenKind

/-- Every kind, trivia first. -/
def all : List TokenKind :=
  [blank, comment, project, profile, tool, depends, source, definition,
    reference, duration, name, quoted, openBrace, closeBrace, semicolon,
    equals, invalid]

/-- Trivia separate tokens and mean nothing themselves. -/
def isTrivia : TokenKind → Bool
  | blank | comment => true
  | _ => false

/-- The words that are kept for the language. -/
def keywords : List (String × TokenKind) :=
  [("project", project), ("profile", profile), ("tool", tool),
    ("depends", depends), ("source", source), ("def", definition),
    ("ref", reference), ("duration", duration)]

/-- The kind of a word: its own if it is kept for the language, and
otherwise a name. -/
def ofWord (word : String) : TokenKind :=
  (keywords.lookup word).getD name

/-- How a kind is called in messages. -/
def describe : TokenKind → String
  | blank => "whitespace"
  | comment => "comment"
  | project => "`project`"
  | profile => "`profile`"
  | tool => "`tool`"
  | depends => "`depends`"
  | source => "`source`"
  | definition => "`def`"
  | reference => "`ref`"
  | duration => "`duration`"
  | name => "identifier"
  | quoted => "string literal"
  | openBrace => "`\x7b`"
  | closeBrace => "`\x7d`"
  | semicolon => "`;`"
  | equals => "`=`"
  | invalid => "invalid token"

end TokenKind

/-- A token where it stands in a text. -/
structure Token where
  kind : TokenKind
  /-- The offset of the first byte. -/
  start : Nat
  text : String
deriving DecidableEq

/-- The extent of a token. -/
def Token.span (t : Token) : Span :=
  ⟨t.start, t.start + t.text.utf8ByteSize⟩

end Purview

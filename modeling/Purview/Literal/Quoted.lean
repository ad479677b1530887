/-
Quoted text. A literal is its text between double quotes; inside, the
quote itself, the backslash, the line feed, the tab and the carriage
return are written as a backslash and one letter or mark, and every
other character stands for itself. Reading undoes writing, and refuses
whatever writing cannot have produced except raw control characters,
which it takes as they are.
-/
import Purview.Literal.Error

namespace Purview

namespace Quoted

/-- How one character of the text is written. -/
def escape (c : Char) : List Char :=
  if c = '"' then ['\\', '"']
  else if c = '\\' then ['\\', '\\']
  else if c = '\n' then ['\\', 'n']
  else if c = '\t' then ['\\', 't']
  else if c = '\r' then ['\\', 'r']
  else [c]

/-- The character that a backslash and `c` stand for. -/
def unescape? (c : Char) : Option Char :=
  if c = '"' then some '"'
  else if c = '\\' then some '\\'
  else if c = 'n' then some '\n'
  else if c = 't' then some '\t'
  else if c = 'r' then some '\r'
  else none

/-- The literal that stands for a text, as characters. -/
def encode (text : List Char) : List Char :=
  '"' :: (text.flatMap escape ++ ['"'])

/-- Reads what stands between the quotes. `here` is the offset of the
first character of `body` in the literal, and `stop` the length of the
literal: a backslash at the very end has taken the closing quote with
it, so the quote that is missing belongs at `stop`. -/
def decodeBody (stop here : Nat) :
    (body : List Char) → Except LiteralError (List Char)
  | [] => .ok []
  | c :: rest =>
    if c = '\\' then
      match rest with
      | [] => .error (.expected '"' stop)
      | e :: rest =>
        match unescape? e with
        | none => .error (.invalidEscape e (here + 1))
        | some d =>
          match decodeBody stop (here + 1 + e.utf8Size) rest with
          | .error err => .error err
          | .ok text => .ok (d :: text)
    else if c = '"' then .error (.unexpected '"' here)
    else
      match decodeBody stop (here + c.utf8Size) rest with
      | .error err => .error err
      | .ok text => .ok (c :: text)

/-- Reads a literal. The outer quotes are checked before anything
between them is looked at. -/
def decode (literal : String) : Except LiteralError (List Char) :=
  match literal.toList with
  | [] => .error .empty
  | q :: rest =>
    if q ≠ '"' then .error (.expected '"' 0)
    else if rest.getLast? ≠ some '"' then
      .error (.expected '"' literal.utf8ByteSize)
    else decodeBody literal.utf8ByteSize 1 rest.dropLast

end Quoted

/-- The literal that stands for a text. -/
def quote (text : String) : String :=
  String.ofList (Quoted.encode text.toList)

/-- The text that a literal stands for. -/
def unquote (literal : String) : Except LiteralError String :=
  (Quoted.decode literal).map String.ofList

end Purview

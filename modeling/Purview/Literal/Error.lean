/-
Why a literal cannot be read. Quoted text and durations share one type
of causes; each cause that can be located carries the byte offset of
the culprit, and the wording is in one place, `LiteralError.message`.
-/

namespace Purview

/-- The causes for which a literal is refused. -/
inductive LiteralError where
  /-- There is no text at all. -/
  | empty
  /-- One particular character has to stand at an offset and does not. -/
  | expected (wanted : Char) (offset : Nat)
  /-- A character stands where none of its kind may stand. -/
  | unexpected (found : Char) (offset : Nat)
  /-- A duration names no amount of any unit. -/
  | noComponents
  /-- A unit repeats or follows a smaller one. -/
  | outOfOrder (offset : Nat)
  /-- A unit other than the second has a fraction. -/
  | fractionNotAllowed (offset : Nat)
  /-- A fraction has more digits than a nanosecond resolves. -/
  | tooPrecise (offset : Nat)
  /-- The amount lies outside the range of durations. -/
  | overflow
  /-- A backslash is followed by a character that it cannot escape. -/
  | invalidEscape (found : Char) (offset : Nat)
deriving DecidableEq

namespace LiteralError

/-- The text shown for a cause. -/
def message : LiteralError → String
  | empty => "empty literal"
  | expected wanted offset =>
    "expected `" ++ wanted.toString ++ "` at offset " ++ Nat.repr offset
  | unexpected found offset =>
    "unexpected `" ++ found.toString ++ "` at offset " ++ Nat.repr offset
  | noComponents => "duration has no components"
  | outOfOrder offset =>
    "duration component out of order at offset " ++ Nat.repr offset
  | fractionNotAllowed offset =>
    "fraction only allowed on seconds (offset " ++ Nat.repr offset ++ ")"
  | tooPrecise offset =>
    "fraction finer than nanoseconds at offset " ++ Nat.repr offset
  | overflow => "duration does not fit in signed 64-bit nanoseconds"
  | invalidEscape found offset =>
    "invalid escape `\\" ++ found.toString ++ "` at offset " ++ Nat.repr offset

/-- The offset that a cause points at, for the causes that have one. -/
def offset? : LiteralError → Option Nat
  | expected _ offset | unexpected _ offset | outOfOrder offset
  | fractionNotAllowed offset | tooPrecise offset
  | invalidEscape _ offset => some offset
  | empty | noComponents | overflow => none

end LiteralError

end Purview

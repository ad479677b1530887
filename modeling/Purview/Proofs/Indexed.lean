/-
Reading a literal by offsets into its bytes. The readers of literals take
a text apart character by character and only count the bytes they leave
behind. Here they are once more as they go when the text is bytes: they
hold an offset, look at the byte there, compare it with the letters they
know, and cut numbers out of the text between two offsets.

Each such access asks the text for something that it may not have. A byte
is had before the end and at the start of a character only
(`byteAt?`), a stretch only between the starts of two characters
(`Span.slice?`); whoever asks for more gets nothing, and so has nothing
to show in the end. A reader that comes to a result has therefore stayed
within its text, and that both ways of reading always come to the same
result is `Proofs/Culprits`.
-/
import Purview.Proofs.Lossless
import Purview.Literal.Duration
import Purview.Literal.Quoted

namespace Purview

-- ============================================================== accesses

/-- The byte at an offset, which has to be where a character starts. -/
def byteAt? (text : String) (offset : Nat) : Option UInt8 := do
  guard (splitBytes? offset text.toList).isSome
  text.toUTF8.data[offset]?

/-- The byte at an offset if the text goes on there. -/
def peekAt? (text : String) (offset : Nat) : Option (Option UInt8) :=
  if offset < text.utf8ByteSize then (byteAt? text offset).map some
  else some none

-- ============================================================= durations

namespace Duration

/-- Whether a byte is a decimal digit. -/
def isDigitByte (b : UInt8) : Bool :=
  '0'.toUInt8 ≤ b && b ≤ '9'.toUInt8

/-- The unit that a byte marks, before or after the time mark. -/
def unitOfByte? (timed : Bool) (b : UInt8) : Option TimeUnit :=
  if timed then
    if b = 'H'.toUInt8 then some .hours
    else if b = 'M'.toUInt8 then some .minutes
    else if b = 'S'.toUInt8 then some .seconds
    else none
  else if b = 'D'.toUInt8 then some .days
  else none

/-- The number that digits write, if it can be counted. -/
def number? (digits : String) : Option Nat :=
  let value := Nat.ofDigitChars 10 digits.toList 0
  if digits ≠ "" ∧ digits.toList.all Char.isDigit ∧ value < sumLimit then
    some value
  else none

/-- The offset behind the digits that start at one. -/
def skipDigits? (text : String) (start : Nat) :
    Option { stop // start ≤ stop } := do
  if h : start < text.utf8ByteSize then
    if isDigitByte (← byteAt? text start) then
      let ⟨stop, hstop⟩ ← skipDigits? text (start + 1)
      return ⟨stop, by omega⟩
    else return ⟨start, Nat.le_refl _⟩
  else return ⟨start, Nat.le_refl _⟩
termination_by text.utf8ByteSize - start

/-- The fault of what stands at an offset. -/
def misplacedAt? (text : String) (offset : Nat) : Option LiteralError := do
  let rest ← Span.slice? ⟨offset, text.utf8ByteSize⟩ text
  return misplaced offset rest.toList

/-- The fraction at an offset, if there is one, and the offset behind
it. -/
def fractionAt? (text : String) (start : Nat) :
    Option (Except LiteralError (Option Nat × { stop // start ≤ stop })) := do
  match ← peekAt? text start with
  | none => return .ok (none, ⟨start, Nat.le_refl _⟩)
  | some b =>
    if b = '.'.toUInt8 ∨ b = ','.toUInt8 then
      let ⟨stop, hstop⟩ ← skipDigits? text (start + 1)
      let digits := stop - (start + 1)
      if digits = 0 then return .error (← misplacedAt? text stop)
      else if fractionDigits < digits then
        return .error (.tooPrecise (start + 1))
      else
        match number? (← Span.slice? ⟨start + 1, stop⟩ text) with
        | none => return .error .overflow
        | some value =>
          return .ok (some (value * Nat.pow 10 (fractionDigits - digits)),
            ⟨stop, by omega⟩)
    else return .ok (none, ⟨start, Nat.le_refl _⟩)

/-- Reads the component at the offset that reading has come to. -/
def componentAt? (text : String) (r : Reading) :
    Option (Except LiteralError { r' : Reading // r.offset < r'.offset }) := do
  let ⟨stop, hstop⟩ ← skipDigits? text r.offset
  if stop = r.offset then return .error (← misplacedAt? text stop)
  else
    match number? (← Span.slice? ⟨r.offset, stop⟩ text) with
    | none => return .error .overflow
    | some whole =>
      match ← fractionAt? text stop with
      | .error err => return .error err
      | .ok (fraction, ⟨offset, hoffset⟩) =>
        match ← peekAt? text offset with
        | none =>
          return .error (.expected (if r.timed then 'S' else 'D') offset)
        | some b =>
          match unitOfByte? r.timed b with
          | none => return .error (← misplacedAt? text offset)
          | some unit =>
            let total := r.total + (whole * unit.nanos + fraction.getD 0)
            if r.last.any (fun last => unit.rank ≤ last.rank) then
              return .error (.outOfOrder offset)
            else if fraction.isSome ∧ unit ≠ .seconds then
              return .error (.fractionNotAllowed offset)
            else if sumLimit ≤ total then return .error .overflow
            else
              return .ok ⟨⟨offset + 1, r.timed, some unit, total⟩, by
                simp only; omega⟩

/-- Reads components from the offset that reading has come to, up to the
end of the text. -/
def componentsAt? (text : String) (r : Reading) :
    Option (Except LiteralError Reading) := do
  if _h : r.offset < text.utf8ByteSize then
    if (← byteAt? text r.offset) = 'T'.toUInt8 then
      if r.timed then return .error (← misplacedAt? text r.offset)
      else componentsAt? text ⟨r.offset + 1, true, r.last, r.total⟩
    else
      match ← componentAt? text r with
      | .error err => return .error err
      | .ok ⟨r', _hr⟩ => componentsAt? text r'
  else return .ok r
termination_by text.utf8ByteSize - r.offset

/-- Reads a duration by offsets. -/
def parseAt? (text : String) : Option (Except LiteralError Duration) := do
  if text.utf8ByteSize = 0 then return .error .empty
  else
    let first ← byteAt? text 0
    let negative := first = '-'.toUInt8
    let start := if first = '-'.toUInt8 ∨ first = '+'.toUInt8 then 1 else 0
    if (← peekAt? text start) ≠ some 'P'.toUInt8 then
      return .error (.expected 'P' start)
    else
      match ← componentsAt? text ⟨start + 1, false, none, 0⟩ with
      | .error err => return .error err
      | .ok r =>
        if r.timed ∧ (r.last = none ∨ r.last = some .days) then
          return .error (.expected 'S' text.utf8ByteSize)
        else if r.last = none then return .error .noComponents
        else
          match ofMagnitude? negative r.total with
          | none => return .error .overflow
          | some d => return .ok d

end Duration

-- =========================================================== quoted texts

namespace Quoted

/-- The characters of a stretch, each with its offset there. -/
def indices (offset : Nat) : List Char → List (Nat × Char)
  | [] => []
  | c :: cs => (offset, c) :: indices (offset + c.utf8Size) cs

/-- Reads what stands between the quotes, which take one byte in front
of it. -/
def decodeIndices (stop : Nat) :
    (body : List (Nat × Char)) → Except LiteralError (List Char)
  | [] => .ok []
  | (i, c) :: rest =>
    if c = '\\' then
      match rest with
      | [] => .error (.expected '"' stop)
      | (j, e) :: rest =>
        match unescape? e with
        | none => .error (.invalidEscape e (j + 1))
        | some d => (decodeIndices stop rest).map (d :: ·)
    else if c = '"' then .error (.unexpected '"' (i + 1))
    else (decodeIndices stop rest).map (c :: ·)

end Quoted

/-- Reads a quoted literal by offsets. -/
def unquoteAt? (literal : String) : Option (Except LiteralError String) := do
  let size := literal.utf8ByteSize
  if size = 0 then return .error .empty
  else if literal.toList.head? ≠ some '"' then
    return .error (.expected '"' 0)
  else if size < 2 ∨ literal.toList.getLast? ≠ some '"' then
    return .error (.expected '"' size)
  else
    let body ← Span.slice? ⟨1, size - 1⟩ literal
    return (Quoted.decodeIndices size (Quoted.indices 0 body.toList)).map
      String.ofList

end Purview

/-
Durations: signed spans of time in whole nanoseconds. The written form
is an optional sign, `P`, an amount of days, and after `T` amounts of
hours, minutes and seconds in that order, of which seconds alone may
carry a fraction of at most nine digits.

Reading is one walk over the components (`Reading`): each is digits, an
optional fraction and the letter of its unit, and the units have to
come in falling size, so what has been read is told by the offset, the
unit of the last component, whether `T` has been passed, and the total.
The first fault ends the walk. Writing splits the magnitude by the
units and leaves out every unit that is not needed.
-/
import Purview.Literal.Error

namespace Purview

/-- A signed number of nanoseconds of 64 bits. -/
structure Duration where
  nanos : Int
  bounded : -9223372036854775808 ≤ nanos ∧ nanos < 9223372036854775808
deriving DecidableEq

/-- The units of a written duration. -/
inductive TimeUnit where
  | days
  | hours
  | minutes
  | seconds
deriving DecidableEq

namespace TimeUnit

/-- Larger units come first. -/
def rank : TimeUnit → Nat
  | days => 1
  | hours => 2
  | minutes => 3
  | seconds => 4

/-- The length of a unit in nanoseconds. -/
def nanos : TimeUnit → Nat
  | days => 86400000000000
  | hours => 3600000000000
  | minutes => 60000000000
  | seconds => 1000000000

/-- The letter that marks an amount of a unit. -/
def letter : TimeUnit → Char
  | days => 'D'
  | hours => 'H'
  | minutes => 'M'
  | seconds => 'S'

/-- The unit a letter marks, before or after the time mark `T`. -/
def ofLetter? (timed : Bool) (c : Char) : Option TimeUnit :=
  if timed then
    if c = 'H' then some hours
    else if c = 'M' then some minutes
    else if c = 'S' then some seconds
    else none
  else if c = 'D' then some days
  else none

end TimeUnit

namespace Duration

/-- A fraction of a second has at most this many digits. -/
def fractionDigits : Nat := 9

/-- Amounts are summed in 128 bits, and a literal whose sum outgrows
them is refused at that component, whatever follows it. -/
def sumLimit : Nat := 340282366920938463463374607431768211456

/-- The largest magnitude of a sign: there is one more negative
duration than there are positive ones. -/
def magnitudeLimit (negative : Bool) : Nat :=
  if negative then 9223372036854775808 else 9223372036854775807

-- ========================================================== reading

/-- How far the reading of a literal has come. -/
structure Reading where
  /-- The offset of the next character; all before it are ASCII. -/
  offset : Nat
  /-- Whether the time mark has been passed. -/
  timed : Bool
  /-- The unit of the last component. -/
  last : Option TimeUnit
  /-- The sum of the components in nanoseconds. -/
  total : Nat
deriving DecidableEq

/-- The fault of a character that may not stand where it does; at the
end of the text the unit of the smallest component is what is missing. -/
def misplaced (offset : Nat) : List Char → LiteralError
  | [] => .expected 'S' offset
  | c :: _ => .unexpected c offset

/-- Reads the fraction that may follow the digits of an amount: its
value in nanoseconds, if there is one, and what comes after it. -/
def readFraction (offset : Nat) (cs : List Char) :
    Except LiteralError (Option Nat × Nat × List Char) :=
  match cs with
  | [] => .ok (none, offset, [])
  | c :: rest =>
    if c = '.' ∨ c = ',' then
      let digits := rest.takeWhile Char.isDigit
      let after := rest.dropWhile Char.isDigit
      if digits.length = 0 then .error (misplaced (offset + 1) after)
      else if fractionDigits < digits.length then
        .error (.tooPrecise (offset + 1))
      else
        let nanos := Nat.ofDigitChars 10 digits 0
          * Nat.pow 10 (fractionDigits - digits.length)
        .ok (some nanos, offset + 1 + digits.length, after)
    else .ok (none, offset, c :: rest)

/-- Reads one component: digits, an optional fraction and a letter. -/
def readComponent (r : Reading) (cs : List Char) :
    Except LiteralError (Reading × List Char) :=
  let digits := cs.takeWhile Char.isDigit
  let after := cs.dropWhile Char.isDigit
  let whole := Nat.ofDigitChars 10 digits 0
  if digits.length = 0 then .error (misplaced r.offset after)
  else if sumLimit ≤ whole then .error .overflow
  else
    match readFraction (r.offset + digits.length) after with
    | .error err => .error err
    | .ok (_, offset, []) =>
      .error (.expected (if r.timed then 'S' else 'D') offset)
    | .ok (fraction, offset, c :: rest) =>
      match TimeUnit.ofLetter? r.timed c with
      | none => .error (.unexpected c offset)
      | some unit =>
        let total := r.total + (whole * unit.nanos + fraction.getD 0)
        if r.last.any (fun last => unit.rank ≤ last.rank) then
          .error (.outOfOrder offset)
        else if fraction.isSome ∧ unit ≠ .seconds then
          .error (.fractionNotAllowed offset)
        else if sumLimit ≤ total then .error .overflow
        else .ok (⟨offset + 1, r.timed, some unit, total⟩, rest)

/-- A fraction may be missing, so nothing need be read. -/
theorem length_after_readFraction {offset : Nat} {cs : List Char}
    {out : Option Nat × Nat × List Char}
    (h : readFraction offset cs = .ok out) :
    out.2.2.length ≤ cs.length := by
  have hd (cs : List Char) : (cs.dropWhile Char.isDigit).length ≤ cs.length :=
    (List.dropWhile_sublist _).length_le
  unfold readFraction at h
  split at h
  · cases h; simp
  · next c rest =>
    split at h
    · dsimp only at h
      split at h
      · cases h
      · split at h
        · cases h
        · cases h; exact Nat.le_succ_of_le (hd rest)
    · cases h; simp

/-- A component is never empty, so reading them comes to an end. -/
theorem length_after_readComponent {r : Reading} {cs : List Char}
    {out : Reading × List Char} (h : readComponent r cs = .ok out) :
    out.2.length < cs.length := by
  have hd : (cs.dropWhile Char.isDigit).length ≤ cs.length :=
    (List.dropWhile_sublist _).length_le
  unfold readComponent at h
  dsimp only at h
  split at h
  · cases h
  · split at h
    · cases h
    · split at h
      · cases h
      · cases h
      · next hf =>
        have hl := length_after_readFraction hf
        split at h
        · cases h
        · split at h
          · cases h
          · split at h
            · cases h
            · split at h
              · cases h
              · cases h
                simp only [List.length_cons] at hl ⊢
                omega

/-- Reads the components that follow `P`, to the end of the text. The
time mark may stand once, anywhere between two components. -/
def readComponents (r : Reading) :
    (cs : List Char) → Except LiteralError Reading
  | [] => .ok r
  | c :: rest =>
    if c = 'T' then
      if r.timed then .error (.unexpected 'T' r.offset)
      else readComponents ⟨r.offset + 1, true, r.last, r.total⟩ rest
    else
      match _h : readComponent r (c :: rest) with
      | .error err => .error err
      | .ok (r', rest') => readComponents r' rest'
termination_by cs => cs.length
decreasing_by
  · simp
  · exact length_after_readComponent _h

/-- The duration of a sign and a magnitude, if there is one. -/
def ofMagnitude? (negative : Bool) (total : Nat) : Option Duration :=
  if h : total ≤ magnitudeLimit negative then
    some ⟨if negative then -(total : Int) else total, by
      unfold magnitudeLimit at h
      split at h <;> split <;> omega⟩
  else none

/-- Splits the sign off a text: whether it is negative, the sign's
length and the rest. -/
def readSign : List Char → Bool × Nat × List Char
  | '-' :: rest => (true, 1, rest)
  | '+' :: rest => (false, 1, rest)
  | cs => (false, 0, cs)

/-- Reads a duration from its number of nanoseconds, in decimal digits
behind an optional sign. -/
def ofNanos? (text : String) : Option Duration :=
  let (negative, _, digits) := readSign text.toList
  if digits ≠ [] ∧ digits.all Char.isDigit then
    ofMagnitude? negative (Nat.ofDigitChars 10 digits 0)
  else none

/-- Reads a duration from the characters of a literal. -/
def ofChars (cs : List Char) : Except LiteralError Duration :=
  if cs.isEmpty then .error .empty
  else
    let (negative, offset, unsigned) := readSign cs
    match unsigned with
    | 'P' :: rest =>
      match readComponents ⟨offset + 1, false, none, 0⟩ rest with
      | .error err => .error err
      | .ok r =>
        if r.timed ∧ (r.last = none ∨ r.last = some .days) then
          .error (.expected 'S' r.offset)
        else if r.last = none then .error .noComponents
        else
          match ofMagnitude? negative r.total with
          | none => .error .overflow
          | some d => .ok d
    | _ => .error (.expected 'P' offset)

/-- Reads a duration literal. -/
def parse (text : String) : Except LiteralError Duration :=
  ofChars text.toList

-- ========================================================== writing

/-- An amount of a unit, left out when it is zero. -/
def writeAmount (unit : TimeUnit) (amount : Nat) : List Char :=
  if amount = 0 then [] else Nat.toDigits 10 amount ++ [unit.letter]

/-- The digits of a fraction of a second, without trailing zeros. -/
def writeFraction (nanos : Nat) : List Char :=
  if nanos = 0 then []
  else
    let digits := (Nat.toDigits 10 nanos).leftpad fractionDigits '0'
    '.' :: (digits.reverse.dropWhile (· = '0')).reverse

/-- The seconds with their fraction, left out when both are zero. -/
def writeSeconds (seconds fraction : Nat) : List Char :=
  if seconds = 0 ∧ fraction = 0 then []
  else
    Nat.toDigits 10 seconds ++ writeFraction fraction
      ++ [TimeUnit.seconds.letter]

/-- The written form of a magnitude: days, and the rest of the day
after the time mark. -/
def writeMagnitude (total : Nat) : List Char :=
  let ofDay := total % TimeUnit.days.nanos
  let ofHour := ofDay % TimeUnit.hours.nanos
  let ofMinute := ofHour % TimeUnit.minutes.nanos
  let time :=
    writeAmount .hours (ofDay / TimeUnit.hours.nanos)
      ++ writeAmount .minutes (ofHour / TimeUnit.minutes.nanos)
      ++ writeSeconds (ofMinute / TimeUnit.seconds.nanos)
        (ofMinute % TimeUnit.seconds.nanos)
  writeAmount .days (total / TimeUnit.days.nanos)
    ++ (if ofDay = 0 then [] else 'T' :: time)

/-- The canonical written form, as characters. -/
def toChars (d : Duration) : List Char :=
  if d.nanos = 0 then ['P', 'T', '0', 'S']
  else
    (if d.nanos < 0 then ['-'] else [])
      ++ 'P' :: writeMagnitude d.nanos.natAbs

/-- The canonical written form. -/
def render (d : Duration) : String :=
  String.ofList d.toChars

/-- Whether a duration runs backwards. -/
def isNegative (d : Duration) : Bool :=
  decide (d.nanos < 0)

/-- Durations in ascending order. -/
def sort (ds : List Duration) : List Duration :=
  ds.mergeSort fun a b => decide (a.nanos ≤ b.nanos)

end Duration

end Purview

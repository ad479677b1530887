/-
What a duration literal is, and that reading accepts just that. A literal
is a sign that may be missing, `P`, an amount of days that may be
missing, and perhaps `T` with amounts of hours, minutes and seconds, of
which at least one is there (`Written`). It stands for the exact sum of
its amounts; the sum of a literal is a whole number of nanoseconds,
since only seconds have a fraction, and one of at most nine digits
(`Amount.cast_nanos`).

Reading knows nothing of that shape: it goes from component to
component, and each unit has to be smaller than the one before. So the
two are compared by way of lists of components. Reading a list whose
units fall ends with the sum of its amounts, or overflows if that has
outgrown the counter (`readComponents_spellAll`); and a text that is
read to its end is such a list (`timed_of_readComponents`,
`untimed_of_readComponents`). A list whose units fall has each unit at
most once, which makes it a literal (`exists_leading`).
-/
import Mathlib.Data.List.TakeWhile
import Mathlib.Data.Rat.Cast.Order
import Mathlib.Tactic.FieldSimp
import Mathlib.Tactic.Ring
import Purview.Literal.Duration

namespace Purview.Duration

-- ============================================================= literals

/-- A number as it is written: decimal digits, at least one. -/
structure Numeral where
  digits : List Char
  ne_nil : digits ≠ []
  isDigit : ∀ c ∈ digits, c.isDigit

/-- The number that is written. -/
def Numeral.value (n : Numeral) : Nat := Nat.ofDigitChars 10 n.digits 0

/-- A fraction as it is written: a point or a comma, and at most nine
digits. -/
structure Fraction where
  mark : Char
  numeral : Numeral
  isMark : mark = '.' ∨ mark = ','
  short : numeral.digits.length ≤ 9

namespace Fraction

/-- The mark and the digits behind it. -/
def spell (f : Fraction) : List Char := f.mark :: f.numeral.digits

/-- The first digit counts tenths. -/
def value (f : Fraction) : ℚ :=
  f.numeral.value / 10 ^ f.numeral.digits.length

end Fraction

/-- An amount of a unit. Only seconds may have a fraction. -/
structure Amount (unit : TimeUnit) where
  whole : Numeral
  fraction : Option Fraction
  only : fraction.isSome → unit = .seconds

namespace Amount

variable {unit : TimeUnit}

/-- The digits, the fraction if there is one, and the letter. -/
def spell (a : Amount unit) : List Char :=
  a.whole.digits ++ a.fraction.elim [] Fraction.spell ++ [unit.letter]

/-- The exact amount in nanoseconds. -/
def value (a : Amount unit) : ℚ :=
  (a.whole.value + a.fraction.elim 0 Fraction.value) * unit.nanos

end Amount

/-- What may follow the time mark. -/
structure Time where
  hours : Option (Amount .hours)
  minutes : Option (Amount .minutes)
  seconds : Option (Amount .seconds)
  nonempty : hours.isSome ∨ minutes.isSome ∨ seconds.isSome

namespace Time

/-- The amounts that are there, from the largest unit down. -/
def spell (t : Time) : List Char :=
  t.hours.elim [] Amount.spell ++ t.minutes.elim [] Amount.spell
    ++ t.seconds.elim [] Amount.spell

/-- The exact sum of the amounts in nanoseconds. -/
def value (t : Time) : ℚ :=
  t.hours.elim 0 Amount.value + t.minutes.elim 0 Amount.value
    + t.seconds.elim 0 Amount.value

end Time

/-- A sign that is written. -/
inductive Sign where
  | plus
  | minus
deriving DecidableEq

/-- The character of a sign. -/
def Sign.spell : Sign → Char
  | plus => '+'
  | minus => '-'

/-- A duration literal. -/
structure Written where
  sign : Option Sign
  days : Option (Amount .days)
  time : Option Time
  nonempty : days.isSome ∨ time.isSome

namespace Written

/-- What stands behind `P`. -/
def body (l : Written) : List Char :=
  l.days.elim [] Amount.spell ++ l.time.elim [] fun t => 'T' :: t.spell

/-- The sign if there is one, and the body behind `P`. -/
def spell (l : Written) : List Char :=
  (l.sign.map Sign.spell).toList ++ 'P' :: l.body

/-- Only a minus makes a duration negative. -/
def negative (l : Written) : Bool := decide (l.sign = some .minus)

/-- The exact sum of the amounts in nanoseconds. -/
def magnitude (l : Written) : ℚ :=
  l.days.elim 0 Amount.value + l.time.elim 0 Time.value

/-- The exact duration in nanoseconds. -/
def value (l : Written) : ℚ :=
  if l.negative then -l.magnitude else l.magnitude

/-- Whether the duration is one of 64 bits. -/
def Fits (l : Written) : Prop :=
  l.magnitude ≤ if l.negative then 2 ^ 63 else 2 ^ 63 - 1

end Written

-- =========================================================== nanoseconds

/-- A fraction of a second in nanoseconds. -/
def Fraction.nanos (f : Fraction) : Nat :=
  f.numeral.value * 10 ^ (fractionDigits - f.numeral.digits.length)

/-- The nanoseconds that the reader makes of a fraction lose nothing of
it: it has at most nine digits. -/
theorem Fraction.cast_nanos (f : Fraction) :
    (f.nanos : ℚ) = f.value * TimeUnit.seconds.nanos := by
  have hshort : f.numeral.digits.length ≤ fractionDigits := f.short
  have hpow : (10 : ℚ) ^ f.numeral.digits.length
      * 10 ^ (fractionDigits - f.numeral.digits.length)
      = TimeUnit.seconds.nanos := by
    rw [← pow_add, Nat.add_sub_cancel' hshort]
    norm_num [fractionDigits, TimeUnit.nanos]
  rw [nanos, value, ← hpow]
  push_cast
  field_simp

/-- An amount in nanoseconds. -/
def Amount.nanos {unit : TimeUnit} (a : Amount unit) : Nat :=
  a.whole.value * unit.nanos + a.fraction.elim 0 Fraction.nanos

/-- The nanoseconds of an amount are its exact value. -/
theorem Amount.cast_nanos {unit : TimeUnit} (a : Amount unit) :
    (a.nanos : ℚ) = a.value := by
  obtain ⟨whole, fraction, only⟩ := a
  unfold nanos value
  cases fraction with
  | none => simp
  | some f =>
    obtain rfl := only rfl
    simp [f.cast_nanos, add_mul]

theorem cast_elim_nanos {unit : TimeUnit} (a : Option (Amount unit)) :
    ((a.elim 0 Amount.nanos : Nat) : ℚ) = a.elim 0 Amount.value := by
  cases a with
  | none => exact Nat.cast_zero
  | some a => exact a.cast_nanos

/-- The sum of amounts in nanoseconds. -/
def Time.nanos (t : Time) : Nat :=
  t.hours.elim 0 Amount.nanos + t.minutes.elim 0 Amount.nanos
    + t.seconds.elim 0 Amount.nanos

theorem Time.cast_nanos (t : Time) : (t.nanos : ℚ) = t.value := by
  simp only [nanos, value, Nat.cast_add, cast_elim_nanos]

/-- The sum of the amounts of a literal in nanoseconds. -/
def Written.nanos (l : Written) : Nat :=
  l.days.elim 0 Amount.nanos + l.time.elim 0 Time.nanos

theorem Written.cast_nanos (l : Written) :
    (l.nanos : ℚ) = l.magnitude := by
  rw [nanos, magnitude, Nat.cast_add, cast_elim_nanos]
  cases l.time with
  | none => exact congrArg (_ + ·) Nat.cast_zero
  | some t => exact congrArg (_ + ·) t.cast_nanos

-- =============================================================== digits

/-- A run of digits ends at the first character that is none. -/
theorem takeWhile_digits {digits : List Char}
    (h : ∀ c ∈ digits, c.isDigit) {c : Char} (hc : ¬ c.isDigit)
    (rest : List Char) :
    (digits ++ c :: rest).takeWhile Char.isDigit = digits := by
  rw [List.takeWhile_append_of_pos h, List.takeWhile_cons_of_neg hc,
    List.append_nil]

theorem dropWhile_digits {digits : List Char}
    (h : ∀ c ∈ digits, c.isDigit) {c : Char} (hc : ¬ c.isDigit)
    (rest : List Char) :
    (digits ++ c :: rest).dropWhile Char.isDigit = c :: rest := by
  rw [List.dropWhile_append_of_pos h, List.dropWhile_cons_of_neg hc]

/-- The number in front of a text, unless there is none. -/
theorem exists_numeral {cs : List Char}
    (h : (cs.takeWhile Char.isDigit).length ≠ 0) :
    ∃ n : Numeral, n.digits = cs.takeWhile Char.isDigit :=
  ⟨⟨_, List.length_pos_iff.1 (Nat.pos_of_ne_zero h),
    fun _ hc => List.mem_takeWhile_imp hc⟩, rfl⟩

-- ============================================================ fractions

/-- What is no fraction is left alone. -/
theorem readFraction_none (offset : Nat) {c : Char}
    (hc : ¬ (c = '.' ∨ c = ',')) (rest : List Char) :
    readFraction offset (c :: rest) = .ok (none, offset, c :: rest) := by
  rw [readFraction, if_neg hc]

/-- A fraction is read up to what follows its digits. -/
theorem readFraction_spell (offset : Nat) (f : Fraction) {c : Char}
    (hc : ¬ c.isDigit) (rest : List Char) :
    readFraction offset (f.spell ++ c :: rest)
      = .ok (some f.nanos, offset + f.spell.length, c :: rest) := by
  obtain ⟨mark, n, hmark, hshort⟩ := f
  have hlength : n.digits.length ≤ fractionDigits := hshort
  show readFraction offset (mark :: (n.digits ++ c :: rest)) = _
  unfold readFraction
  simp only [hmark, if_true, takeWhile_digits n.isDigit hc,
    dropWhile_digits n.isDigit hc, List.length_eq_zero_iff, n.ne_nil,
    if_false, Nat.not_lt.2 hlength]
  simp only [Fraction.spell, List.length_cons, Nat.add_assoc,
    Nat.add_comm 1]
  rfl

/-- What is read as a fraction, or as none, is one, or is not there. -/
theorem fraction_of_readFraction {offset offset' : Nat}
    {cs rest : List Char} {nanos : Option Nat}
    (h : readFraction offset cs = .ok (nanos, offset', rest)) :
    ∃ f : Option Fraction, nanos = f.map Fraction.nanos
      ∧ cs = f.elim [] Fraction.spell ++ rest
      ∧ offset' = offset + (f.elim [] Fraction.spell).length := by
  unfold readFraction at h
  split at h
  · cases h
    exact ⟨none, rfl, rfl, rfl⟩
  · next c tail =>
    split at h
    · next hmark =>
      dsimp only at h
      split at h
      · cases h
      · next hne =>
        split at h
        · cases h
        · next hlong =>
          obtain ⟨n, hn⟩ := exists_numeral hne
          rw [← hn] at hlong
          have htail : tail = n.digits ++ tail.dropWhile Char.isDigit := by
            rw [hn, List.takeWhile_append_dropWhile]
          simp only [← hn] at h
          cases h
          refine ⟨some ⟨c, n, hmark, Nat.not_lt.1 hlong⟩, rfl, ?_, ?_⟩
          · exact congrArg (c :: ·) htail
          · simp only [Option.elim_some, Fraction.spell,
              List.length_cons, Nat.add_assoc, Nat.add_comm 1]
    · cases h
      exact ⟨none, rfl, rfl, rfl⟩

-- =========================================================== components

/-- Whether amounts of a unit stand behind the time mark. -/
def afterMark : TimeUnit → Bool
  | .days => false
  | .hours | .minutes | .seconds => true

/-- A unit is known by its letter on its side of the time mark. -/
theorem ofLetter?_letter (unit : TimeUnit) :
    TimeUnit.ofLetter? (afterMark unit) unit.letter = some unit := by
  cases unit <;> rfl

/-- And nothing else is taken for it. -/
theorem eq_of_ofLetter? {timed : Bool} {c : Char} {unit : TimeUnit}
    (h : TimeUnit.ofLetter? timed c = some unit) :
    timed = afterMark unit ∧ c = unit.letter := by
  unfold TimeUnit.ofLetter? at h
  cases timed <;> grind [afterMark, TimeUnit.letter]

/-- Only larger units have been read. -/
def Reading.Before (r : Reading) (unit : TimeUnit) : Prop :=
  ∀ last ∈ r.last, last.rank < unit.rank

/-- An amount together with its unit. -/
abbrev Component : Type := Σ unit, Amount unit

/-- How far reading has come behind a component. -/
def Reading.past (r : Reading) (c : Component) : Reading :=
  ⟨r.offset + c.2.spell.length, r.timed, some c.1, r.total + c.2.nanos⟩

/-- Behind a component only smaller units may come. -/
theorem Reading.before_past {r : Reading} {c : Component}
    {unit : TimeUnit} : (r.past c).Before unit ↔ c.1.rank < unit.rank := by
  unfold Before past
  simp

/-- A component is read as what it is, unless the sum overflows. -/
theorem readComponent_spell {r : Reading} {unit : TimeUnit}
    (a : Amount unit) (hmark : r.timed = afterMark unit)
    (horder : r.Before unit) (rest : List Char) :
    readComponent r (a.spell ++ rest)
      = if (r.past ⟨unit, a⟩).total < sumLimit
        then .ok (r.past ⟨unit, a⟩, rest) else .error .overflow := by
  obtain ⟨n, f, honly⟩ := a
  -- the digits stand in front of a fraction or of the letter
  obtain ⟨first, tail, htail, hfirst⟩ : ∃ first tail,
      f.elim [] Fraction.spell ++ unit.letter :: rest = first :: tail
        ∧ ¬ first.isDigit := by
    cases f with
    | none => exact ⟨_, _, rfl, by cases unit <;> decide⟩
    | some f =>
      refine ⟨f.mark, _, rfl, ?_⟩
      rcases f.isMark with h | h <;> rw [h] <;> decide
  have hspell : Amount.spell ⟨n, f, honly⟩ ++ rest
      = n.digits ++ first :: tail := by
    simp [Amount.spell, ← htail]
  have hletter : ¬ unit.letter.isDigit ∧ ¬ (unit.letter = '.'
      ∨ unit.letter = ',') := by cases unit <;> decide
  have hfraction : ∀ offset, readFraction offset (first :: tail)
      = .ok (f.map Fraction.nanos,
        offset + (f.elim [] Fraction.spell).length,
        unit.letter :: rest) := by
    intro offset
    rw [← htail]
    cases f with
    | none => exact readFraction_none offset hletter.2 rest
    | some f => exact readFraction_spell offset f hletter.1 rest
  have hlast : r.last.any (fun last => unit.rank ≤ last.rank) = false := by
    rw [Option.any_eq_false]
    exact fun last hlast => by simpa using horder last hlast
  have hplace : ¬ ((f.map Fraction.nanos).isSome ∧ unit ≠ .seconds) :=
    fun h => h.2 (honly (by simpa using h.1))
  have hpast : r.past ⟨unit, n, f, honly⟩
      = ⟨r.offset + n.digits.length + (f.elim [] Fraction.spell).length + 1,
        afterMark unit, some unit, r.total + (n.value * unit.nanos
          + (f.map Fraction.nanos).getD 0)⟩ := by
    cases f <;> simp [Reading.past, Amount.spell, Amount.nanos, hmark,
      Nat.add_assoc]
  have hwhole : sumLimit ≤ n.value →
      ¬ (r.past ⟨unit, n, f, honly⟩).total < sumLimit := by
    intro hlarge
    rw [hpast]
    have hunit : 1 ≤ unit.nanos := by cases unit <;> decide
    have := Nat.le_mul_of_pos_right n.value hunit
    dsimp only
    omega
  rw [hspell]
  unfold readComponent
  simp only [takeWhile_digits n.isDigit hfirst,
    dropWhile_digits n.isDigit hfirst, List.length_eq_zero_iff, n.ne_nil,
    if_false]
  split
  · next hlarge => rw [if_neg (hwhole hlarge)]
  · simp only [hfraction, hmark, ofLetter?_letter, hlast, hplace,
      Bool.false_eq_true, if_false, hpast, Numeral.value]
    split
    · next hlarge => rw [if_neg (Nat.not_lt.2 hlarge)]
    · next hsmall => rw [if_pos (Nat.not_le.1 hsmall)]

/-- What is read as a component is one. -/
theorem component_of_readComponent {r r' : Reading} {cs rest : List Char}
    (h : readComponent r cs = .ok (r', rest)) :
    ∃ c : Component, cs = c.2.spell ++ rest ∧ r.timed = afterMark c.1
      ∧ r.Before c.1 ∧ r' = r.past c := by
  unfold readComponent at h
  dsimp only at h
  split at h
  · cases h
  · next hne =>
    split at h
    · cases h
    · split at h
      · cases h
      · cases h
      · next fraction offset c tail hfraction =>
        split at h
        · cases h
        · next unit hunit =>
          split at h
          · cases h
          · next horder =>
            split at h
            · cases h
            · next honly =>
              split at h
              · cases h
              · obtain ⟨f, hnanos, hafter, hoffset⟩ :=
                  fraction_of_readFraction hfraction
                obtain ⟨hmark, rfl⟩ := eq_of_ofLetter? hunit
                obtain ⟨n, hn⟩ := exists_numeral hne
                have hcs := List.takeWhile_append_dropWhile
                  (p := Char.isDigit) (l := cs)
                rw [← hn, hafter] at hcs
                simp only [← hn] at h hoffset
                cases h
                have hplace : f.isSome → unit = .seconds := by
                  intro hsome
                  by_contra hne
                  exact honly ⟨by rw [hnanos]; simpa using hsome, hne⟩
                refine ⟨⟨unit, n, f, hplace⟩, ?_, hmark, ?_, ?_⟩
                · simp [Amount.spell, ← hcs]
                · intro last hlast
                  rw [hlast] at horder
                  simpa using horder
                · cases f <;> simp [Reading.past, Amount.spell,
                    Amount.nanos, hoffset, hnanos, Nat.add_assoc,
                    Numeral.value]

/-- A component starts with a digit, and so not with the time mark. -/
theorem exists_spell_cons {unit : TimeUnit} (a : Amount unit) :
    ∃ c cs, a.spell = c :: cs ∧ c ≠ 'T' := by
  obtain ⟨c, digits, hdigits⟩ := List.exists_cons_of_ne_nil a.whole.ne_nil
  have hc : c.isDigit := a.whole.isDigit c (hdigits ▸ List.mem_cons_self)
  refine ⟨c, _, by rw [Amount.spell, hdigits]; rfl, ?_⟩
  rintro rfl
  exact absurd hc (by decide)

/-- A component that may come next is taken up, unless the sum grows too
large with it. -/
theorem readComponents_cons {r : Reading} {c : Component}
    (hmark : r.timed = afterMark c.1) (horder : r.Before c.1)
    (rest : List Char) :
    readComponents r (c.2.spell ++ rest)
      = if (r.past c).total < sumLimit then readComponents (r.past c) rest
        else .error .overflow := by
  have hread := readComponent_spell c.2 hmark horder rest
  obtain ⟨first, cs, hcs, hfirst⟩ := exists_spell_cons c.2
  rw [hcs, List.cons_append] at hread ⊢
  rw [readComponents, if_neg hfirst]
  split at hread
  · next hsmall =>
    rw [if_pos hsmall]
    split
    · next hfail => rw [hread] at hfail; cases hfail
    · next hok => rw [hread] at hok; cases hok; rfl
  · next hlarge =>
    rw [if_neg hlarge]
    split
    · next hfail => rw [hread] at hfail; cases hfail; rfl
    · next hok => rw [hread] at hok; cases hok

-- ===================================================== runs of components

/-- The text of components. -/
def spellAll (cs : List Component) : List Char :=
  cs.flatMap fun c => c.2.spell

/-- The sum of components in nanoseconds. -/
def sumAll (cs : List Component) : Nat :=
  (cs.map fun c => c.2.nanos).sum

/-- Components that may follow what has been read: all on the side of
the time mark that has been reached, and their units fall. -/
structure Reading.Admits (r : Reading) (cs : List Component) : Prop where
  mark : ∀ c ∈ cs, r.timed = afterMark c.1
  before : ∀ c ∈ cs, r.Before c.1
  falling : cs.Pairwise fun c c' => c.1.rank < c'.1.rank

/-- How far reading has come behind components. -/
def Reading.pastAll (r : Reading) (cs : List Component) : Reading :=
  cs.foldl Reading.past r

theorem spellAll_cons (c : Component) (cs : List Component) :
    spellAll (c :: cs) = c.2.spell ++ spellAll cs := rfl

theorem spellAll_append (cs cs' : List Component) :
    spellAll (cs ++ cs') = spellAll cs ++ spellAll cs' :=
  List.flatMap_append

theorem sumAll_cons (c : Component) (cs : List Component) :
    sumAll (c :: cs) = c.2.nanos + sumAll cs := rfl

theorem sumAll_append (cs cs' : List Component) :
    sumAll (cs ++ cs') = sumAll cs + sumAll cs' := by
  unfold sumAll
  rw [List.map_append, List.sum_append]

variable {r r' : Reading} {c : Component} {cs : List Component}

theorem Reading.admits_nil : r.Admits [] :=
  ⟨by simp, by simp, .nil⟩

theorem Reading.admits_cons : r.Admits (c :: cs) ↔
    r.timed = afterMark c.1 ∧ r.Before c.1 ∧ (r.past c).Admits cs := by
  constructor
  · intro h
    obtain ⟨hsmaller, hfalling⟩ := List.pairwise_cons.1 h.falling
    exact ⟨h.mark c List.mem_cons_self, h.before c List.mem_cons_self,
      fun c' hc' => h.mark c' (List.mem_cons_of_mem _ hc'),
      fun c' hc' => before_past.2 (hsmaller c' hc'), hfalling⟩
  · rintro ⟨hmark, hbefore, h⟩
    have hsmaller : ∀ c' ∈ cs, c.1.rank < c'.1.rank :=
      fun c' hc' => before_past.1 (h.before c' hc')
    refine ⟨List.forall_mem_cons.2 ⟨hmark, h.mark⟩,
      List.forall_mem_cons.2 ⟨hbefore, fun c' hc' last hlast => ?_⟩,
      List.pairwise_cons.2 ⟨hsmaller, h.falling⟩⟩
    exact Nat.lt_trans (hbefore last hlast) (hsmaller c' hc')

/-- Components do not cross the time mark. -/
theorem Reading.timed_pastAll (r : Reading) (cs : List Component) :
    (r.pastAll cs).timed = r.timed := by
  induction cs generalizing r with
  | nil => rfl
  | cons c cs ih => exact ih (r.past c)

/-- What has been read adds up. -/
theorem Reading.total_pastAll (r : Reading) (cs : List Component) :
    (r.pastAll cs).total = r.total + sumAll cs := by
  induction cs generalizing r with
  | nil => rfl
  | cons c cs ih =>
    rw [sumAll_cons, ← Nat.add_assoc]
    exact ih (r.past c)

/-- The last unit is that of the last component. -/
theorem Reading.last_pastAll (r : Reading) (cs : List Component) :
    (r.pastAll cs).last = (cs.getLast?.map Sigma.fst).or r.last := by
  rcases List.eq_nil_or_concat cs with rfl | ⟨init, c, rfl⟩
  · rfl
  · rw [List.concat_eq_append, pastAll, List.foldl_append,
      List.getLast?_concat]
    rfl

/-- Components whose units fall are read as what they are, unless the
sum overflows. -/
theorem readComponents_spellAll (h : r.Admits cs)
    (hsum : r.total < sumLimit) (rest : List Char) :
    readComponents r (spellAll cs ++ rest)
      = if r.total + sumAll cs < sumLimit
        then readComponents (r.pastAll cs) rest
        else .error .overflow := by
  induction cs generalizing r with
  | nil => exact (if_pos hsum).symm
  | cons c cs ih =>
    obtain ⟨hmark, hbefore, hrest⟩ := Reading.admits_cons.1 h
    have htotal : r.total + sumAll (c :: cs)
        = (r.past c).total + sumAll cs := (Nat.add_assoc _ _ _).symm
    rw [htotal, spellAll_cons, List.append_assoc,
      readComponents_cons hmark hbefore]
    split
    · next hsmall => exact ih hrest hsmall
    · next hlarge => rw [if_neg (by omega)]

/-- Behind the time mark, what is read to the end is components whose
units fall. -/
theorem timed_of_readComponents {text : List Char}
    (h : readComponents r text = .ok r') (htimed : r.timed = true) :
    ∃ cs, text = spellAll cs ∧ r.Admits cs ∧ r' = r.pastAll cs := by
  fun_induction readComponents r text with
  | case1 r =>
    cases h
    exact ⟨[], rfl, Reading.admits_nil, rfl⟩
  | case2 r rest ht => cases h
  | case3 r rest ht ih => exact absurd htimed ht
  | case4 r c rest hc err herr => cases h
  | case5 r c rest hc next tail hread ih =>
    obtain ⟨first, htext, hmark, hbefore, rfl⟩ :=
      component_of_readComponent hread
    obtain ⟨cs, rfl, hadmits, rfl⟩ := ih h htimed
    exact ⟨first :: cs, htext,
      Reading.admits_cons.2 ⟨hmark, hbefore, hadmits⟩, rfl⟩

/-- How far reading has come behind the time mark. -/
def Reading.marked (r : Reading) : Reading :=
  ⟨r.offset + 1, true, r.last, r.total⟩

/-- Before the time mark, what is read to the end is components whose
units fall, perhaps with the time mark and more of them behind. -/
theorem untimed_of_readComponents {text : List Char}
    (h : readComponents r text = .ok r') (htimed : r.timed = false) :
    ∃ cs, r.Admits cs ∧
      ((text = spellAll cs ∧ r' = r.pastAll cs)
      ∨ ∃ later, text = spellAll cs ++ 'T' :: spellAll later
        ∧ (r.pastAll cs).marked.Admits later
        ∧ r' = (r.pastAll cs).marked.pastAll later) := by
  fun_induction readComponents r text with
  | case1 r =>
    cases h
    exact ⟨[], Reading.admits_nil, .inl ⟨rfl, rfl⟩⟩
  | case2 r rest ht => cases h
  | case3 r rest ht ih =>
    obtain ⟨later, rfl, hadmits, rfl⟩ := timed_of_readComponents h rfl
    exact ⟨[], Reading.admits_nil, .inr ⟨later, rfl, hadmits, rfl⟩⟩
  | case4 r c rest hc err herr => cases h
  | case5 r c rest hc next tail hread ih =>
    obtain ⟨first, htext, hmark, hbefore, rfl⟩ :=
      component_of_readComponent hread
    obtain ⟨cs, hadmits, hcase⟩ := ih h htimed
    refine ⟨first :: cs,
      Reading.admits_cons.2 ⟨hmark, hbefore, hadmits⟩, ?_⟩
    rcases hcase with ⟨rfl, rfl⟩ | ⟨later, rfl, hlater, rfl⟩
    · exact .inl ⟨htext, rfl⟩
    · refine .inr ⟨later, htext.trans ?_, hlater, rfl⟩
      rw [spellAll_cons, List.append_assoc]

-- ============================================================== shapes

/-- In components whose units fall, and are no larger than some unit, an
amount of that unit can only come first. -/
theorem exists_leading (unit : TimeUnit)
    (h : cs.Pairwise fun c c' => c.1.rank < c'.1.rank)
    (hlarge : ∀ c ∈ cs, unit.rank ≤ c.1.rank) :
    ∃ (a : Option (Amount unit)) (later : List Component),
      cs = a.toList.map (Sigma.mk unit) ++ later
      ∧ later.Pairwise (fun c c' => c.1.rank < c'.1.rank)
      ∧ ∀ c ∈ later, unit.rank < c.1.rank := by
  cases cs with
  | nil => exact ⟨none, [], rfl, .nil, fun _ h => nomatch h⟩
  | cons c cs =>
    obtain ⟨hsmaller, hcs⟩ := List.pairwise_cons.1 h
    obtain ⟨u, a⟩ := c
    by_cases hu : u = unit
    · subst hu
      exact ⟨some a, cs, rfl, hcs, hsmaller⟩
    · have hlt : unit.rank < u.rank := by
        have hle := hlarge _ List.mem_cons_self
        cases unit <;> cases u <;> simp_all [TimeUnit.rank]
      refine ⟨none, ⟨u, a⟩ :: cs, rfl, h, List.forall_mem_cons.2
        ⟨hlt, fun c hc => Nat.lt_trans hlt (hsmaller c hc)⟩⟩

/-- The components of what follows the time mark. -/
def Time.components (t : Time) : List Component :=
  t.hours.toList.map (Sigma.mk .hours)
    ++ t.minutes.toList.map (Sigma.mk .minutes)
    ++ t.seconds.toList.map (Sigma.mk .seconds)

/-- The components of what precedes the time mark: days or none. -/
def Written.daysAll (l : Written) : List Component :=
  l.days.toList.map (Sigma.mk .days)

theorem spellAll_toList {unit : TimeUnit} (a : Option (Amount unit)) :
    spellAll (a.toList.map (Sigma.mk unit)) = a.elim [] Amount.spell := by
  cases a with
  | none => rfl
  | some a => exact List.append_nil _

theorem sumAll_toList {unit : TimeUnit} (a : Option (Amount unit)) :
    sumAll (a.toList.map (Sigma.mk unit)) = a.elim 0 Amount.nanos := by
  cases a <;> rfl

/-- The components of a time, one after another, spell it. -/
theorem Time.spellAll_components (t : Time) :
    spellAll t.components = t.spell := by
  unfold components
  simp only [spellAll_append, spellAll_toList]
  rfl

theorem Time.sumAll_components (t : Time) :
    sumAll t.components = t.nanos := by
  unfold components
  simp only [sumAll_append, sumAll_toList]
  rfl

/-- Units fall from one component to the next. -/
theorem Time.falling_components (t : Time) :
    t.components.Pairwise fun c c' => c.1.rank < c'.1.rank := by
  obtain ⟨_ | h, _ | m, _ | s, -⟩ := t <;>
    simp [components, TimeUnit.rank]

theorem Time.mark_components (t : Time) :
    ∀ c ∈ t.components, afterMark c.1 = true := by
  obtain ⟨_ | h, _ | m, _ | s, -⟩ := t <;>
    simp [components, afterMark]

theorem Time.components_ne_nil (t : Time) : t.components ≠ [] := by
  obtain ⟨hours, minutes, seconds, hne⟩ := t
  intro hnil
  simp only [components, List.append_eq_nil_iff, List.map_eq_nil_iff,
    Option.toList_eq_nil_iff] at hnil
  simp [hnil] at hne

theorem isSome_of_not_none {hours : Option (Amount .hours)}
    {minutes : Option (Amount .minutes)} {seconds : Option (Amount .seconds)}
    (h : ¬ (hours = none ∧ minutes = none ∧ seconds = none)) :
    hours.isSome ∨ minutes.isSome ∨ seconds.isSome := by
  cases hours <;> cases minutes <;> cases seconds <;> simp at h ⊢

/-- Components behind the time mark whose units fall make up what may
follow it, if there are any. -/
theorem exists_time (hne : cs ≠ []) (hmark : ∀ c ∈ cs, afterMark c.1)
    (hfalling : cs.Pairwise fun c c' => c.1.rank < c'.1.rank) :
    ∃ t : Time, cs = t.components := by
  have hrank : ∀ unit, afterMark unit = true → 2 ≤ unit.rank := by
    intro unit; cases unit <;> decide
  obtain ⟨hours, later, rfl, hlater, hsmaller⟩ :=
    exists_leading .hours hfalling fun c hc => hrank _ (hmark c hc)
  obtain ⟨minutes, last, rfl, hlast, hsmaller⟩ :=
    exists_leading .minutes hlater hsmaller
  obtain ⟨seconds, rest, rfl, -, hsmaller⟩ :=
    exists_leading .seconds hlast hsmaller
  have hnone : rest = [] := List.eq_nil_iff_forall_not_mem.2 fun c hc => by
    have hleast : ∀ unit : TimeUnit, unit.rank ≤ TimeUnit.seconds.rank := by
      intro unit; cases unit <;> decide
    exact Nat.not_lt.2 (hleast c.1) (hsmaller c hc)
  subst hnone
  have hsome : hours.isSome ∨ minutes.isSome ∨ seconds.isSome := by
    refine isSome_of_not_none ?_
    rintro ⟨rfl, rfl, rfl⟩
    exact hne rfl
  exact ⟨⟨hours, minutes, seconds, hsome⟩, by simp [Time.components]⟩

/-- Components before the time mark are an amount of days, if any. -/
theorem exists_days (hmark : ∀ c ∈ cs, afterMark c.1 = false)
    (hfalling : cs.Pairwise fun c c' => c.1.rank < c'.1.rank) :
    ∃ days : Option (Amount .days), cs = days.toList.map (Sigma.mk .days) := by
  have hrank : ∀ unit, afterMark unit = false → unit = .days := by
    intro unit; cases unit <;> decide
  obtain ⟨days, later, rfl, -, hsmaller⟩ := exists_leading .days hfalling
    fun c hc => by rw [hrank _ (hmark c hc)]
  have hnone : later = [] := List.eq_nil_iff_forall_not_mem.2 fun c hc => by
    have hlt := hsmaller c hc
    rw [hrank _ (hmark c (List.mem_append_right _ hc))] at hlt
    exact Nat.lt_irrefl _ hlt
  exact ⟨days, by rw [hnone, List.append_nil]⟩

-- ====================================================== the whole text

/-- How far reading has come behind `P`. -/
def Reading.begun (offset : Nat) : Reading := ⟨offset, false, none, 0⟩

/-- How far reading has come behind the days of a literal. -/
def Written.pastDays (l : Written) (offset : Nat) : Reading :=
  (Reading.begun offset).pastAll l.daysAll

/-- Whether the text may end where reading has come: something has been
read, and behind the time mark if that has been passed. -/
structure Reading.Complete (r : Reading) : Prop where
  last : r.last ≠ none
  time : r.timed = true → r.last ≠ some .days

namespace Written

theorem timed_pastDays (l : Written) (offset : Nat) :
    (l.pastDays offset).timed = false :=
  Reading.timed_pastAll _ _

theorem total_pastDays (l : Written) (offset : Nat) :
    (l.pastDays offset).total = l.days.elim 0 Amount.nanos := by
  rw [pastDays, Reading.total_pastAll, daysAll, sumAll_toList]
  exact Nat.zero_add _

theorem last_pastDays (l : Written) (offset : Nat) :
    (l.pastDays offset).last = l.days.map fun _ => .days := by
  unfold pastDays daysAll
  cases l.days <;> rfl

/-- What precedes the time mark is read as the days that it is. -/
theorem readComponents_days (l : Written) (offset : Nat)
    (rest : List Char) :
    readComponents (.begun offset) (l.days.elim [] Amount.spell ++ rest)
      = if l.days.elim 0 Amount.nanos < sumLimit
        then readComponents (l.pastDays offset) rest
        else .error .overflow := by
  have hadmits : (Reading.begun offset).Admits l.daysAll := by
    unfold daysAll
    cases l.days with
    | none => exact Reading.admits_nil
    | some a =>
      exact Reading.admits_cons.2 ⟨rfl, fun _ h => (nomatch h),
        Reading.admits_nil⟩
  have hread := readComponents_spellAll hadmits
    (show 0 < sumLimit by decide) rest
  rw [show (Reading.begun offset).total = 0 from rfl, Nat.zero_add,
    daysAll, spellAll_toList, sumAll_toList] at hread
  exact hread

end Written

/-- What may follow the time mark may follow any days in front of it. -/
theorem Reading.admits_time (hlast : ∀ u ∈ r.last, u = .days) (t : Time) :
    r.marked.Admits t.components := by
  refine ⟨fun c hc => (t.mark_components c hc).symm,
    fun c hc last h => ?_, t.falling_components⟩
  have hbelow : ∀ unit, afterMark unit = true →
      TimeUnit.days.rank < unit.rank := by
    intro unit; cases unit <;> decide
  rw [hlast last h]
  exact hbelow c.1 (t.mark_components c hc)

/-- Behind a time that has an amount, the reader may stop. -/
theorem Reading.complete_time (r : Reading) (t : Time) :
    (r.marked.pastAll t.components).Complete := by
  obtain ⟨c, hc⟩ := Option.ne_none_iff_exists'.1
    (mt List.getLast?_eq_none_iff.1 t.components_ne_nil)
  have hmark := t.mark_components c (List.mem_of_getLast? hc)
  have hlast : (r.marked.pastAll t.components).last = some c.1 := by
    rw [last_pastAll, hc]
    rfl
  refine ⟨by simp [hlast], fun _ => ?_⟩
  rw [hlast]
  intro hdays
  rw [Option.some.inj hdays] at hmark
  exact Bool.false_ne_true hmark

/-- Behind days, the time mark and what follows it add to the sum, unless
that overflows. -/
theorem readComponents_time (htimed : r.timed = false)
    (hlast : ∀ u ∈ r.last, u = .days) (hsum : r.total < sumLimit)
    (t : Time) :
    readComponents r ('T' :: t.spell)
      = if r.total + t.nanos < sumLimit
        then .ok (r.marked.pastAll t.components)
        else .error .overflow := by
  have hread := readComponents_spellAll (Reading.admits_time hlast t) hsum []
  rw [t.spellAll_components, t.sumAll_components, List.append_nil,
    readComponents.eq_1] at hread
  rw [readComponents, if_pos rfl, htimed]
  exact hread

/-- What follows `P` in a literal is read as the sum of its components,
unless that overflows. -/
theorem Written.readComponents_body (l : Written) (offset : Nat) :
    ∃ r : Reading, r.total = l.nanos ∧ r.Complete
      ∧ readComponents (.begun offset) l.body
        = if l.nanos < sumLimit then .ok r else .error .overflow := by
  have htotal := l.total_pastDays offset
  have htimed := l.timed_pastDays offset
  have hlast := l.last_pastDays offset
  rw [body, readComponents_days]
  cases htime : l.time with
  | none =>
    have hnanos : l.nanos = l.days.elim 0 Amount.nanos := by
      simp [nanos, htime]
    refine ⟨l.pastDays offset, htotal.trans hnanos.symm, ⟨?_, ?_⟩, ?_⟩
    · have hdays : l.days.isSome := by simpa [htime] using l.nonempty
      rw [hlast]
      simpa [Option.isSome_iff_ne_none] using hdays
    · simp [htimed]
    · rw [Option.elim_none, readComponents, hnanos]
  | some t =>
    have hnanos : l.nanos = l.days.elim 0 Amount.nanos + t.nanos := by
      simp [nanos, htime]
    refine ⟨(l.pastDays offset).marked.pastAll t.components, ?_,
      Reading.complete_time _ t, ?_⟩
    · rw [hnanos, ← htotal, ← t.sumAll_components]
      exact Reading.total_pastAll _ _
    · rw [Option.elim_some, hnanos]
      split
      · next hsmall =>
        rw [readComponents_time htimed (by simp [hlast])
          (htotal ▸ hsmall), htotal]
      · next hlarge => rw [if_neg (by omega)]

/-- What is read to its end behind `P` is what follows it in a literal of
any sign. -/
theorem exists_body_of_readComponents {offset : Nat} {text : List Char}
    (h : readComponents (.begun offset) text = .ok r) (hr : r.Complete)
    (sign : Option Sign) :
    ∃ l : Written, l.sign = sign ∧ text = l.body := by
  obtain ⟨cs, hcs, hcase⟩ := untimed_of_readComponents h rfl
  obtain ⟨days, rfl⟩ :=
    exists_days (fun c hc => (hcs.mark c hc).symm) hcs.falling
  rw [spellAll_toList] at hcase
  rcases hcase with ⟨rfl, rfl⟩ | ⟨later, rfl, hlater, rfl⟩
  · have hsome : days.isSome := by
      cases days with
      | none => exact absurd rfl hr.last
      | some a => rfl
    exact ⟨⟨sign, days, none, .inl hsome⟩, rfl, (List.append_nil _).symm⟩
  · have hne : later ≠ [] := by
      rintro rfl
      cases days with
      | none => exact hr.last rfl
      | some a => exact hr.time rfl rfl
    have hmark : ∀ c ∈ later, afterMark c.1 = true := fun c hc =>
      (hlater.mark c hc).symm
    obtain ⟨t, rfl⟩ := exists_time hne hmark hlater.falling
    refine ⟨⟨sign, days, some t, .inr rfl⟩, rfl, ?_⟩
    rw [t.spellAll_components]
    rfl

-- ================================================================ signs

/-- The sign of a text is split off from it. -/
theorem readSign_spell (l : Written) :
    readSign l.spell = (l.negative,
      (l.sign.map Sign.spell).toList.length, 'P' :: l.body) := by
  obtain ⟨_ | _ | _, _, _, _⟩ := l <;> rfl

/-- Every text begins with a sign or with none. -/
theorem exists_sign (text : List Char) :
    ∃ sign : Option Sign,
      text = (sign.map Sign.spell).toList ++ (readSign text).2.2 := by
  unfold readSign
  split
  · exact ⟨some .minus, rfl⟩
  · exact ⟨some .plus, rfl⟩
  · exact ⟨none, rfl⟩

-- ====================================================== the whole text

/-- A literal is read as what it stands for, or it overflows. -/
theorem ofChars_spell (l : Written) :
    ofChars l.spell = match ofMagnitude? l.negative l.nanos with
      | some d => .ok d
      | none => .error .overflow := by
  obtain ⟨r, htotal, hcomplete, hread⟩ := l.readComponents_body
    ((l.sign.map Sign.spell).toList.length + 1)
  have hne : l.spell.isEmpty = false := by
    simp [Written.spell, List.isEmpty_eq_false_iff]
  have hmark : ¬ (r.timed = true
      ∧ (r.last = none ∨ r.last = some .days)) := fun h =>
    h.2.elim hcomplete.last (hcomplete.time h.1)
  unfold Reading.begun at hread
  unfold ofChars
  simp only [hne, Bool.false_eq_true, if_false, readSign_spell, hread]
  by_cases hsmall : l.nanos < sumLimit
  · simp only [if_pos hsmall, if_neg hmark, if_neg hcomplete.last, htotal]
    cases ofMagnitude? l.negative l.nanos <;> rfl
  · -- the counter is larger than any duration
    have hlimit : ¬ l.nanos ≤ magnitudeLimit l.negative := by
      unfold magnitudeLimit sumLimit at *
      split <;> omega
    simp only [if_neg hsmall, ofMagnitude?, dif_neg hlimit]

/-- What is read is a literal. -/
theorem exists_written_of_ofChars {text : List Char} {d : Duration}
    (h : ofChars text = .ok d) : ∃ l : Written, text = l.spell := by
  obtain ⟨sign, htext⟩ := exists_sign text
  unfold ofChars at h
  split at h
  · cases h
  · dsimp only at h
    split at h
    · next body hbody =>
      rw [hbody] at htext
      split at h
      · cases h
      · next r hread =>
        split at h
        · cases h
        · next htime =>
          split at h
          · cases h
          · next hlast =>
            obtain ⟨l, rfl, rfl⟩ := exists_body_of_readComponents hread
              ⟨hlast, fun ht hd => htime ⟨ht, .inr hd⟩⟩ sign
            exact ⟨l, htext⟩
    · cases h

-- =============================================================== values

/-- A magnitude makes a duration exactly if 64 bits hold it with its
sign. -/
theorem ofMagnitude?_eq_some {negative : Bool} {total : Nat}
    {d : Duration} : ofMagnitude? negative total = some d ↔
      total ≤ magnitudeLimit negative
        ∧ d.nanos = if negative then -(total : Int) else total := by
  unfold ofMagnitude?
  split
  · next h =>
    obtain ⟨nanos, hbounded⟩ := d
    simp [h, eq_comm]
  · next h => simp [h]

namespace Written

/-- Whether a literal fits is told by its nanoseconds. -/
theorem fits_iff {l : Written} :
    l.Fits ↔ l.nanos ≤ magnitudeLimit l.negative := by
  have hlimit : (magnitudeLimit l.negative : ℚ)
      = if l.negative then 2 ^ 63 else 2 ^ 63 - 1 := by
    cases l.negative <;> norm_num [magnitudeLimit]
  rw [Fits, ← hlimit, ← l.cast_nanos, Nat.cast_le]

theorem value_eq (l : Written) :
    l.value = ((if l.negative then -(l.nanos : Int) else l.nanos : Int) : ℚ)
      := by
  rw [value, ← l.cast_nanos]
  split <;> simp

end Written

/-- A literal is read as a duration exactly if it fits, and the duration
is its value. -/
theorem ofChars_spell_eq_ok {l : Written} {d : Duration} :
    ofChars l.spell = .ok d ↔ l.Fits ∧ (d.nanos : ℚ) = l.value := by
  have hread : ofChars l.spell = .ok d
      ↔ ofMagnitude? l.negative l.nanos = some d := by
    rw [ofChars_spell]
    cases ofMagnitude? l.negative l.nanos <;> simp
  rw [hread, ofMagnitude?_eq_some, Written.fits_iff, l.value_eq,
    Int.cast_inj]

/-- A literal that fits is read. -/
theorem exists_of_fits {l : Written} (h : l.Fits) :
    ∃ d, ofChars l.spell = .ok d := by
  have hlimit := Written.fits_iff.1 h
  rw [ofChars_spell, ofMagnitude?, dif_pos hlimit]
  exact ⟨_, rfl⟩

/-- What is read is the literals that fit, each as its exact value. -/
theorem parse_written (text : String) :
    (∀ d, parse text = .ok d ↔
      ∃ l : Written, text.toList = l.spell ∧ l.Fits
        ∧ (d.nanos : ℚ) = l.value)
    ∧ ((∃ d, parse text = .ok d) ↔
      ∃ l : Written, text.toList = l.spell ∧ l.Fits) := by
  have hread : ∀ d, parse text = .ok d ↔
      ∃ l : Written, text.toList = l.spell ∧ l.Fits
        ∧ (d.nanos : ℚ) = l.value := by
    intro d
    constructor
    · intro hparse
      obtain ⟨l, hl⟩ := exists_written_of_ofChars hparse
      rw [parse, hl] at hparse
      exact ⟨l, hl, ofChars_spell_eq_ok.1 hparse⟩
    · rintro ⟨l, hl, hvalue⟩
      rw [parse, hl]
      exact ofChars_spell_eq_ok.2 hvalue
  refine ⟨hread, ⟨?_, ?_⟩⟩
  · rintro ⟨d, hparse⟩
    obtain ⟨l, hl, hfits, -⟩ := (hread d).1 hparse
    exact ⟨l, hl, hfits⟩
  · rintro ⟨l, hl, hfits⟩
    rw [parse, hl]
    exact exists_of_fits hfits

end Purview.Duration

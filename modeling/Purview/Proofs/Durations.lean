/-
What is written for a duration is a literal of it, in a canonical form:
no number has zeros in front, no fraction has them at its end, and each
unit is written as often as it fits into what the larger ones leave,
unless that is never. So what is written is read back as the duration.

The magnitude is split by the units from the largest to the smallest,
which loses nothing (`sum_units`), and each part of it is written as an
amount, or not at all (`exists_writeAmount`, `exists_writeSeconds`). The
only amount with anything more to it is that of the seconds: trimming
the zeros off its fraction divides it by a power of ten, and reading
multiplies by the same power (`exists_writeFraction`).
-/
import Mathlib.Data.List.DropRight
import Purview.Proofs.Components

namespace Purview.Duration

-- ============================================================== digits

theorem ofDigitChars_concat (digits : List Char) (c : Char) :
    Nat.ofDigitChars 10 (digits ++ [c]) 0
      = 10 * Nat.ofDigitChars 10 digits 0 + (c.toNat - '0'.toNat) := by
  rw [Nat.ofDigitChars_append]
  rfl

theorem toNat_of_isDigit {c : Char} (h : c.isDigit) :
    '0'.toNat ≤ c.toNat ∧ c.toNat ≤ '0'.toNat + 9 :=
  Char.isDigit_iff_toNat.1 h

/-- Digits make a number with no more digits. -/
theorem ofDigitChars_lt {digits : List Char}
    (h : ∀ c ∈ digits, c.isDigit) :
    Nat.ofDigitChars 10 digits 0 < 10 ^ digits.length := by
  induction digits using List.reverseRecOn with
  | nil => decide
  | append_singleton digits c ih =>
    have hlt := ih fun c hc => h c (List.mem_append_left _ hc)
    have hc := toNat_of_isDigit (h c (by simp))
    rw [ofDigitChars_concat, List.length_append, List.length_singleton,
      Nat.pow_succ]
    omega

theorem isDigit_of_mem_leftpad {n k : Nat} :
    ∀ c ∈ (Nat.toDigits 10 n).leftpad k '0', c.isDigit := by
  intro c hc
  rcases List.mem_append.1 hc with hc | hc
  · rw [List.eq_of_mem_replicate hc]
    rfl
  · exact Nat.isDigit_of_mem_toDigits (by decide) (by decide) hc

theorem ofDigitChars_leftpad (n k : Nat) :
    Nat.ofDigitChars 10 ((Nat.toDigits 10 n).leftpad k '0') 0 = n := by
  rw [List.leftpad, Nat.ofDigitChars_append,
    Nat.ofDigitChars_replicate_zero, Nat.mul_zero,
    Nat.ofDigitChars_ten_toDigits]

/-- The zeros at the end of a run of digits are a power of ten. -/
theorem ofDigitChars_rdropWhile (digits : List Char) :
    Nat.ofDigitChars 10 (digits.rdropWhile (· = '0')) 0
        * 10 ^ (digits.length - (digits.rdropWhile (· = '0')).length)
      = Nat.ofDigitChars 10 digits 0 := by
  let kept := digits.rdropWhile (· = '0')
  let zeros := digits.rtakeWhile (· = '0')
  have hsplit : kept ++ zeros = digits := List.rdropWhile_append_rtakeWhile
  have hzeros : zeros = List.replicate zeros.length '0' :=
    List.eq_replicate_of_mem fun c hc => by
      simpa using List.mem_rtakeWhile_imp hc
  have hcount : digits.length - kept.length = zeros.length := by
    rw [← hsplit, List.length_append, Nat.add_sub_cancel_left]
  show Nat.ofDigitChars 10 kept 0 * 10 ^ (digits.length - kept.length) = _
  rw [hcount, ← hsplit, Nat.ofDigitChars_append, hzeros,
    Nat.ofDigitChars_replicate_zero, List.length_replicate, Nat.mul_comm]

-- ================================================== canonical literals

/-- A number has no zeros in front. -/
def Numeral.Plain (n : Numeral) : Prop :=
  n.digits.head? = some '0' → n.digits = ['0']

/-- A fraction stands behind a point and has no zeros at its end. -/
structure Fraction.Trimmed (f : Fraction) : Prop where
  mark : f.mark = '.'
  last : f.numeral.digits.getLast? ≠ some '0'

/-- Only in front of a fraction is the number of an amount zero. -/
structure Amount.Canonical {unit : TimeUnit} (a : Amount unit) : Prop where
  plain : a.whole.Plain
  pos : a.fraction = none → a.whole.value ≠ 0
  trimmed : ∀ f ∈ a.fraction, f.Trimmed

/-- What would make up a larger unit is written as one. -/
structure Time.Canonical (t : Time) : Prop where
  hours : ∀ a ∈ t.hours, a.Canonical ∧ a.whole.value < 24
  minutes : ∀ a ∈ t.minutes, a.Canonical ∧ a.whole.value < 60
  seconds : ∀ a ∈ t.seconds, a.Canonical ∧ a.whole.value < 60

/-- A plus is not written, and neither are amounts that are not
canonical. -/
structure Written.Canonical (l : Written) : Prop where
  sign : l.sign ≠ some .plus
  days : ∀ a ∈ l.days, a.Canonical
  time : ∀ t ∈ l.time, t.Canonical

-- ============================================================== amounts

/-- A number as it is written out. -/
def Numeral.ofNat (n : Nat) : Numeral where
  digits := Nat.toDigits 10 n
  ne_nil := Nat.toDigits_ne_nil
  isDigit _ hc := Nat.isDigit_of_mem_toDigits (by decide) (by decide) hc

theorem Numeral.value_ofNat (n : Nat) : (Numeral.ofNat n).value = n :=
  Nat.ofDigitChars_ten_toDigits

/-- A zero in front of other digits would make the number one with fewer
digits. -/
theorem Numeral.plain_ofNat (n : Nat) : (Numeral.ofNat n).Plain := by
  intro hhead
  obtain ⟨digits, hdigits⟩ := List.head?_eq_some_iff.1 hhead
  cases digits with
  | nil => exact hdigits
  | cons c rest =>
    have hvalue := Numeral.value_ofNat n
    rw [value, hdigits, Nat.ofDigitChars_cons] at hvalue
    have hlt : n < 10 ^ (c :: rest).length := by
      rw [← hvalue]
      refine ofDigitChars_lt fun c hc => (Numeral.ofNat n).isDigit c ?_
      exact hdigits ▸ List.mem_cons_of_mem _ hc
    have hshort : (Numeral.ofNat n).digits.length ≤ (c :: rest).length :=
      (Nat.length_toDigits_le_iff (by decide) (by simp)).2 hlt
    rw [hdigits] at hshort
    exact absurd hshort (by simp)

/-- An amount of a unit is written unless it is zero. -/
theorem exists_writeAmount (unit : TimeUnit) (n : Nat) :
    ∃ a : Option (Amount unit), writeAmount unit n = a.elim [] Amount.spell
      ∧ a.elim 0 Amount.nanos = n * unit.nanos
      ∧ ∀ b ∈ a, b.Canonical ∧ b.whole.value = n := by
  by_cases hn : n = 0
  · subst hn
    exact ⟨none, rfl, (Nat.zero_mul _).symm, by simp⟩
  · have hvalue := Numeral.value_ofNat n
    refine ⟨some ⟨.ofNat n, none, by simp⟩, ?_, ?_, ?_⟩
    · rw [writeAmount, if_neg hn, Option.elim_some, Amount.spell,
        Option.elim_none, List.append_nil]
      rfl
    · simp [Amount.nanos, hvalue]
    · rintro _ ⟨⟩
      exact ⟨⟨Numeral.plain_ofNat n, fun _ => hvalue.trans_ne hn,
        by simp⟩, hvalue⟩

/-- A fraction is written as a point and at most nine digits, of which
the first counts tenths of a second. -/
theorem exists_writeFraction {nanos : Nat} (hpos : nanos ≠ 0)
    (hlt : nanos < TimeUnit.seconds.nanos) :
    ∃ f : Fraction, writeFraction nanos = f.spell ∧ f.nanos = nanos
      ∧ f.Trimmed := by
  let digits := (Nat.toDigits 10 nanos).leftpad fractionDigits '0'
  have hlength : digits.length = fractionDigits := by
    have hshort : (Nat.toDigits 10 nanos).length ≤ fractionDigits :=
      (Nat.length_toDigits_le_iff (by decide) (by decide)).2 hlt
    rw [List.length_leftpad, Nat.max_eq_left hshort]
  let kept := digits.rdropWhile (· = '0')
  have hkept : kept <+: digits := List.rdropWhile_prefix _ _
  have htrim : Nat.ofDigitChars 10 kept 0
      * 10 ^ (fractionDigits - kept.length) = nanos := by
    rw [← hlength, ofDigitChars_rdropWhile, ofDigitChars_leftpad]
  have hne : kept ≠ [] := by
    intro hnil
    rw [hnil, Nat.ofDigitChars_nil, Nat.zero_mul] at htrim
    exact hpos htrim.symm
  have hdigits : ∀ c ∈ kept, c.isDigit := fun c hc =>
    isDigit_of_mem_leftpad c (hkept.subset hc)
  refine ⟨⟨'.', ⟨kept, hne, hdigits⟩, .inl rfl,
    hkept.length_le.trans hlength.le⟩, ?_, htrim, rfl, ?_⟩
  · rw [writeFraction, if_neg hpos]
    rfl
  · intro hlast
    have hzero := List.rdropWhile_last_not (fun c => decide (c = '0'))
      digits hne
    rw [List.getLast?_eq_some_getLast hne] at hlast
    exact hzero (decide_eq_true (Option.some.inj hlast))

theorem exists_writeSeconds (seconds : Nat) {fraction : Nat}
    (hlt : fraction < TimeUnit.seconds.nanos) :
    ∃ a : Option (Amount .seconds),
      writeSeconds seconds fraction = a.elim [] Amount.spell
      ∧ a.elim 0 Amount.nanos
        = seconds * TimeUnit.seconds.nanos + fraction
      ∧ ∀ b ∈ a, b.Canonical ∧ b.whole.value = seconds := by
  by_cases hzero : fraction = 0
  · subst hzero
    obtain ⟨a, hwritten, hnanos, hcanonical⟩ :=
      exists_writeAmount .seconds seconds
    refine ⟨a, ?_, by rw [hnanos, Nat.add_zero], hcanonical⟩
    rw [← hwritten, writeSeconds, writeAmount, writeFraction]
    simp
  · obtain ⟨f, hwritten, hnanos, htrimmed⟩ :=
      exists_writeFraction hzero hlt
    have hvalue := Numeral.value_ofNat seconds
    refine ⟨some ⟨.ofNat seconds, some f, fun _ => rfl⟩, ?_, ?_, ?_⟩
    · rw [writeSeconds, if_neg (fun h => hzero h.2), hwritten]
      rfl
    · simp [Amount.nanos, hvalue, hnanos]
    · rintro _ ⟨⟩
      refine ⟨⟨Numeral.plain_ofNat _, by simp, ?_⟩, hvalue⟩
      rintro _ ⟨⟩
      exact htrimmed

-- =========================================================== magnitudes

/-- What is written of the rest of a day. -/
def writeTime (ofDay : Nat) : List Char :=
  writeAmount .hours (ofDay / TimeUnit.hours.nanos)
    ++ writeAmount .minutes
      (ofDay % TimeUnit.hours.nanos / TimeUnit.minutes.nanos)
    ++ writeSeconds
      (ofDay % TimeUnit.hours.nanos % TimeUnit.minutes.nanos
        / TimeUnit.seconds.nanos)
      (ofDay % TimeUnit.hours.nanos % TimeUnit.minutes.nanos
        % TimeUnit.seconds.nanos)

theorem writeMagnitude_eq (total : Nat) :
    writeMagnitude total = writeAmount .days (total / TimeUnit.days.nanos)
      ++ if total % TimeUnit.days.nanos = 0 then []
        else 'T' :: writeTime (total % TimeUnit.days.nanos) := rfl

/-- Splitting the rest of a day by the units loses nothing. -/
theorem sum_units (ofDay : Nat) :
    ofDay / TimeUnit.hours.nanos * TimeUnit.hours.nanos
      + ofDay % TimeUnit.hours.nanos / TimeUnit.minutes.nanos
          * TimeUnit.minutes.nanos
      + (ofDay % TimeUnit.hours.nanos % TimeUnit.minutes.nanos
            / TimeUnit.seconds.nanos * TimeUnit.seconds.nanos
          + ofDay % TimeUnit.hours.nanos % TimeUnit.minutes.nanos
            % TimeUnit.seconds.nanos)
      = ofDay := by
  simp only [Nat.add_assoc, Nat.div_add_mod']

/-- The rest of a day is written as what may follow the time mark. -/
theorem exists_writeTime {ofDay : Nat} (hpos : ofDay ≠ 0)
    (hlt : ofDay < TimeUnit.days.nanos) :
    ∃ t : Time, writeTime ofDay = t.spell ∧ t.nanos = ofDay
      ∧ t.Canonical := by
  let ofHour := ofDay % TimeUnit.hours.nanos
  let ofMinute := ofHour % TimeUnit.minutes.nanos
  obtain ⟨hours, hwrittenH, hnanosH, hcanonicalH⟩ :=
    exists_writeAmount .hours (ofDay / TimeUnit.hours.nanos)
  obtain ⟨minutes, hwrittenM, hnanosM, hcanonicalM⟩ :=
    exists_writeAmount .minutes (ofHour / TimeUnit.minutes.nanos)
  obtain ⟨seconds, hwrittenS, hnanosS, hcanonicalS⟩ :=
    exists_writeSeconds (ofMinute / TimeUnit.seconds.nanos)
      (Nat.mod_lt ofMinute (show 0 < TimeUnit.seconds.nanos by decide))
  have hsum : hours.elim 0 Amount.nanos + minutes.elim 0 Amount.nanos
      + seconds.elim 0 Amount.nanos = ofDay := by
    rw [hnanosH, hnanosM, hnanosS]
    exact sum_units ofDay
  have hsome : hours.isSome ∨ minutes.isSome ∨ seconds.isSome := by
    refine isSome_of_not_none ?_
    rintro ⟨rfl, rfl, rfl⟩
    exact hpos hsum.symm
  have hhours : ofDay / TimeUnit.hours.nanos < 24 :=
    Nat.div_lt_of_lt_mul hlt
  have hminutes : ofHour / TimeUnit.minutes.nanos < 60 :=
    Nat.div_lt_of_lt_mul
      (Nat.mod_lt ofDay (show 0 < TimeUnit.hours.nanos by decide))
  have hseconds : ofMinute / TimeUnit.seconds.nanos < 60 :=
    Nat.div_lt_of_lt_mul
      (Nat.mod_lt ofHour (show 0 < TimeUnit.minutes.nanos by decide))
  refine ⟨⟨hours, minutes, seconds, hsome⟩, ?_, hsum, ⟨?_, ?_, ?_⟩⟩
  · rw [writeTime, hwrittenH, hwrittenM, hwrittenS]
    rfl
  · intro a ha
    obtain ⟨hcanonical, hvalue⟩ := hcanonicalH a ha
    exact ⟨hcanonical, hvalue.trans_lt hhours⟩
  · intro a ha
    obtain ⟨hcanonical, hvalue⟩ := hcanonicalM a ha
    exact ⟨hcanonical, hvalue.trans_lt hminutes⟩
  · intro a ha
    obtain ⟨hcanonical, hvalue⟩ := hcanonicalS a ha
    exact ⟨hcanonical, hvalue.trans_lt hseconds⟩

/-- A magnitude is written as what follows `P` in a literal of it. -/
theorem exists_writeMagnitude {total : Nat} (hpos : total ≠ 0)
    {sign : Option Sign} (hsign : sign ≠ some .plus) :
    ∃ l : Written, l.sign = sign ∧ writeMagnitude total = l.body
      ∧ l.nanos = total ∧ l.Canonical := by
  obtain ⟨days, hwritten, hnanos, hdays⟩ :=
    exists_writeAmount .days (total / TimeUnit.days.nanos)
  have hsplit : days.elim 0 Amount.nanos + total % TimeUnit.days.nanos
      = total := by
    rw [hnanos, Nat.div_add_mod']
  rw [writeMagnitude_eq, hwritten]
  by_cases hday : total % TimeUnit.days.nanos = 0
  · rw [hday, Nat.add_zero] at hsplit
    have hsome : days.isSome := by
      cases days with
      | none => exact absurd hsplit.symm hpos
      | some a => rfl
    exact ⟨⟨sign, days, none, .inl hsome⟩, rfl, by rw [if_pos hday]; rfl,
      hsplit, hsign, fun a ha => (hdays a ha).1, fun t ht => nomatch ht⟩
  · obtain ⟨t, htime, hrest, hcanonical⟩ :=
      exists_writeTime hday (Nat.mod_lt total (by decide))
    refine ⟨⟨sign, days, some t, .inr rfl⟩, rfl, ?_, ?_, hsign,
      fun a ha => (hdays a ha).1, ?_⟩
    · rw [if_neg hday, htime]
      rfl
    · exact (congrArg (_ + ·) hrest).trans hsplit
    · rintro _ ⟨⟩
      exact hcanonical

/-- A text behind `P` is read to its end with a sum, and a unit behind
the time mark is the last one if there is a time mark. -/
def ReadsAs (cs : List Char) (total : Nat) : Prop :=
  ∀ offset, ∃ r, readComponents ⟨offset, false, none, 0⟩ cs = .ok r
    ∧ r.total = total ∧ r.last ≠ none
    ∧ (r.timed = true → r.last ≠ some .days)

theorem Written.readsAs_body (l : Written) (hsum : l.nanos < sumLimit) :
    ReadsAs l.body l.nanos := by
  intro offset
  obtain ⟨r, htotal, hcomplete, hread⟩ := l.readComponents_body offset
  rw [if_pos hsum] at hread
  exact ⟨r, hread, htotal, hcomplete.last, hcomplete.time⟩

/-- A written magnitude is read as the magnitude. -/
theorem readsAs_writeMagnitude {total : Nat} (hpos : total ≠ 0)
    (hsum : total < sumLimit) :
    ReadsAs (writeMagnitude total) total := by
  obtain ⟨l, -, hwritten, rfl, -⟩ :=
    exists_writeMagnitude hpos (Option.some_ne_none Sign.plus).symm
  rw [hwritten]
  exact l.readsAs_body hsum

/-- No time at all. -/
def Written.zero : Written :=
  ⟨none, none, some ⟨none, none,
    some ⟨.ofNat 0, none, fun h => nomatch h⟩, .inr (.inr rfl)⟩, .inr rfl⟩

/-- No time at all is read as nothing. -/
theorem readsAs_zero : ReadsAs ['T', '0', 'S'] 0 :=
  Written.zero.readsAs_body (by decide)

-- ====================================================== the whole text

/-- Behind its sign and `P`, a text stands for its sum with the sign. -/
theorem ofChars_of_readsAs {cs : List Char} {total : Nat}
    (h : ReadsAs cs total) {negative : Bool} {d : Duration}
    (hd : ofMagnitude? negative total = some d) :
    ofChars ((if negative then ['-'] else []) ++ 'P' :: cs) = .ok d := by
  obtain ⟨offset, hsign⟩ : ∃ offset,
      readSign ((if negative then ['-'] else []) ++ 'P' :: cs)
        = (negative, offset, 'P' :: cs) := by
    cases negative <;> exact ⟨_, rfl⟩
  obtain ⟨r, hread, htotal, hlast, hmark⟩ := h (offset + 1)
  have hmarked : ¬ (r.timed = true ∧ (False ∨ r.last = some .days)) :=
    fun h => hmark h.1 (h.2.resolve_left id)
  unfold ofChars
  simp only [hsign, hread, hmarked, hlast, htotal, hd, if_false,
    List.isEmpty_iff, List.append_eq_nil_iff, reduceCtorEq, and_false]

/-- The magnitude of a duration with its sign is the duration. -/
theorem ofMagnitude?_natAbs (d : Duration) :
    ofMagnitude? (decide (d.nanos < 0)) d.nanos.natAbs = some d := by
  obtain ⟨nanos, hlow, hhigh⟩ := d
  dsimp only
  have hlimit : nanos.natAbs ≤ magnitudeLimit (decide (nanos < 0)) := by
    by_cases hneg : nanos < 0
    · rw [decide_eq_true hneg]
      show nanos.natAbs ≤ 9223372036854775808
      omega
    · rw [decide_eq_false hneg]
      show nanos.natAbs ≤ 9223372036854775807
      omega
  have hvalue : (if decide (nanos < 0) then -(nanos.natAbs : Int)
      else nanos.natAbs) = nanos := by
    by_cases hneg : nanos < 0
    · rw [decide_eq_true hneg, if_pos rfl]
      omega
    · rw [decide_eq_false hneg, if_neg Bool.false_ne_true]
      omega
  rw [ofMagnitude?, dif_pos hlimit]
  simp only [hvalue]

/-- What is written for a duration is read as the duration. -/
theorem parse_render (d : Duration) : parse d.render = .ok d := by
  have hd := ofMagnitude?_natAbs d
  unfold parse render toChars
  rw [String.toList_ofList]
  split
  · next hzero =>
    rw [hzero] at hd
    exact ofChars_of_readsAs readsAs_zero hd
  · next hpos =>
    have hsum : d.nanos.natAbs < sumLimit := by
      have hbounds := d.bounded
      unfold sumLimit
      omega
    have hread := ofChars_of_readsAs
      (readsAs_writeMagnitude (Int.natAbs_ne_zero.2 hpos) hsum) hd
    simpa using hread

end Purview.Duration

/-
Of the literals of a duration, the written one is the only canonical
one. That it is canonical comes with how it is written
(`exists_writeMagnitude`). The other way round, a canonical literal is
what is written for its sum, part by part: as each amount is smaller
than the next larger unit, splitting the sum by the units gives the
amounts back (`split_units`), and as no number has zeros that could be
left out, writing an amount gives its digits back.

The last is one law for whole numbers and for fractions. Digits are all
there is to a number of a fixed length (`eq_of_ofDigitChars_eq`), so the
number of some digits, written out and padded to their count, is those
digits again (`leftpad_toDigits`). Without zeros in front there is
nothing to pad (`Numeral.Plain.toDigits_value`); the digits of a
fraction are padded to nine, which leaves as many zeros behind them as
are trimmed (`writeFraction_nanos`).
-/
import Purview.Proofs.Durations

namespace Purview.Duration

-- =============================================================== digits

/-- Digits of one length that make the same number are the same. -/
theorem eq_of_ofDigitChars_eq {ds es : List Char}
    (hds : ∀ c ∈ ds, c.isDigit) (hes : ∀ c ∈ es, c.isDigit)
    (hlength : ds.length = es.length)
    (h : Nat.ofDigitChars 10 ds 0 = Nat.ofDigitChars 10 es 0) : ds = es := by
  induction ds using List.reverseRecOn generalizing es with
  | nil => exact (List.eq_nil_of_length_eq_zero hlength.symm).symm
  | append_singleton ds c ih =>
    rcases List.eq_nil_or_concat' es with rfl | ⟨es, c', rfl⟩
    · simp at hlength
    · have hc := toNat_of_isDigit (hds c (by simp))
      have hc' := toNat_of_isDigit (hes c' (by simp))
      rw [ofDigitChars_concat, ofDigitChars_concat] at h
      have hlast : c.toNat = c'.toNat := by omega
      have hinit : ds = es :=
        ih (fun c hc => hds c (List.mem_append_left _ hc))
          (fun c hc => hes c (List.mem_append_left _ hc))
          (by simpa using hlength) (by omega)
      rw [hinit, Char.toNat_inj.1 hlast]

/-- The number of some digits, written out and padded to as many, is
those digits. -/
theorem leftpad_toDigits {digits : List Char} (hne : digits ≠ [])
    (h : ∀ c ∈ digits, c.isDigit) :
    (Nat.toDigits 10 (Nat.ofDigitChars 10 digits 0)).leftpad
      digits.length '0' = digits := by
  have hshort : (Nat.toDigits 10 (Nat.ofDigitChars 10 digits 0)).length
      ≤ digits.length :=
    (Nat.length_toDigits_le_iff (by decide)
      (List.length_pos_iff.2 hne)).2 (ofDigitChars_lt h)
  refine eq_of_ofDigitChars_eq isDigit_of_mem_leftpad h ?_
    (ofDigitChars_leftpad _ _)
  rw [List.length_leftpad, Nat.max_eq_left hshort]

/-- A number without zeros in front is written as its digits. -/
theorem Numeral.Plain.toDigits_value {n : Numeral} (h : n.Plain) :
    Nat.toDigits 10 n.value = n.digits := by
  have hpad := leftpad_toDigits n.ne_nil n.isDigit
  change (Nat.toDigits 10 n.value).leftpad n.digits.length '0' = n.digits
    at hpad
  cases hcount : n.digits.length - (Nat.toDigits 10 n.value).length with
  | zero =>
    rw [List.leftpad, hcount] at hpad
    exact hpad
  | succ k =>
    -- the digits start with a zero, so there is but one of them
    have hhead : n.digits.head? = some '0' := by
      rw [← hpad, List.leftpad, hcount]
      rfl
    have hone : n.digits.length = 1 := by rw [h hhead]; rfl
    have hpos : 0 < (Nat.toDigits 10 n.value).length :=
      List.length_pos_iff.2 Nat.toDigits_ne_nil
    omega

-- ============================================================ fractions

/-- A fraction is less than a second. -/
theorem Fraction.nanos_lt (f : Fraction) :
    f.nanos < TimeUnit.seconds.nanos := by
  have hshort : f.numeral.digits.length ≤ fractionDigits := f.short
  have hvalue : f.numeral.value < 10 ^ f.numeral.digits.length :=
    ofDigitChars_lt f.numeral.isDigit
  calc f.nanos
      < 10 ^ f.numeral.digits.length
          * 10 ^ (fractionDigits - f.numeral.digits.length) :=
        Nat.mul_lt_mul_of_pos_right hvalue (Nat.pow_pos (by decide))
    _ = TimeUnit.seconds.nanos := by
        rw [← Nat.pow_add, Nat.add_sub_cancel' hshort]
        rfl

namespace Fraction.Trimmed

variable {f : Fraction}

/-- The last digit counts for something. -/
theorem nanos_ne_zero (h : f.Trimmed) : f.nanos ≠ 0 := by
  refine Nat.mul_ne_zero ?_ (Nat.pow_pos (by decide)).ne'
  intro hzero
  rcases List.eq_nil_or_concat' f.numeral.digits with hnil | ⟨init, c, hlast⟩
  · exact f.numeral.ne_nil hnil
  · have hc := toNat_of_isDigit
      (f.numeral.isDigit c (by rw [hlast]; simp))
    rw [Numeral.value, hlast, ofDigitChars_concat] at hzero
    refine h.last ?_
    rw [hlast, List.getLast?_concat]
    exact congrArg some (Char.toNat_inj.1 (by omega))

/-- Zeros that are put behind the digits are what is dropped. -/
theorem rdropWhile_digits (h : f.Trimmed) (n : Nat) :
    (f.numeral.digits ++ List.replicate n '0').rdropWhile (· = '0')
      = f.numeral.digits := by
  have hlast : f.numeral.digits.rdropWhile (· = '0') = f.numeral.digits :=
    List.rdropWhile_eq_self_iff.2 fun hne hzero => by
      refine h.last ?_
      rw [List.getLast?_eq_some_getLast hne, of_decide_eq_true hzero]
  unfold List.rdropWhile at *
  rw [List.reverse_append, List.dropWhile_append_of_pos, hlast]
  simp

/-- A fraction without zeros at its end is written as its digits. -/
theorem writeFraction_nanos (h : f.Trimmed) :
    writeFraction f.nanos = f.spell := by
  let zeros := fractionDigits - f.numeral.digits.length
  have hne : f.numeral.digits ++ List.replicate zeros '0' ≠ [] :=
    List.append_ne_nil_of_left_ne_nil f.numeral.ne_nil _
  have hdigits : ∀ c ∈ f.numeral.digits ++ List.replicate zeros '0',
      c.isDigit := by
    intro c hc
    rcases List.mem_append.1 hc with hc | hc
    · exact f.numeral.isDigit c hc
    · rw [List.eq_of_mem_replicate hc]
      rfl
  have hlength : (f.numeral.digits ++ List.replicate zeros '0').length
      = fractionDigits := by
    rw [List.length_append, List.length_replicate]
    exact Nat.add_sub_cancel' f.short
  have hvalue : Nat.ofDigitChars 10
      (f.numeral.digits ++ List.replicate zeros '0') 0 = f.nanos := by
    rw [Nat.ofDigitChars_append, Nat.ofDigitChars_replicate_zero,
      Nat.mul_comm]
    rfl
  have hpad := leftpad_toDigits hne hdigits
  rw [hlength, hvalue] at hpad
  rw [writeFraction, if_neg h.nanos_ne_zero, hpad]
  show '.' :: (f.numeral.digits ++ _).rdropWhile (· = '0') = _
  rw [h.rdropWhile_digits, Fraction.spell, h.mark]

end Fraction.Trimmed

-- ============================================================== amounts

/-- How often a unit is written. -/
def count {unit : TimeUnit} (a : Option (Amount unit)) : Nat :=
  a.elim 0 fun b => b.whole.value

/-- An amount without a fraction is what is written for its number. -/
theorem writeAmount_count {unit : TimeUnit} (hunit : unit ≠ .seconds)
    {a : Option (Amount unit)} (ha : ∀ b ∈ a, b.Canonical) :
    writeAmount unit (count a) = a.elim [] Amount.spell
      ∧ a.elim 0 Amount.nanos = count a * unit.nanos := by
  cases a with
  | none => exact ⟨rfl, (Nat.zero_mul _).symm⟩
  | some b =>
    have hb := ha b rfl
    have hnone : b.fraction = none := by
      by_contra hsome
      exact hunit (b.only (Option.isSome_iff_ne_none.2 hsome))
    constructor
    · show writeAmount unit b.whole.value = b.spell
      rw [writeAmount, if_neg (hb.pos hnone), hb.plain.toDigits_value,
        Amount.spell, hnone, Option.elim_none, List.append_nil]
    · show b.nanos = b.whole.value * unit.nanos
      rw [Amount.nanos, hnone, Option.elim_none, Nat.add_zero]

/-- Seconds are written as they were spelled. -/
theorem writeSeconds_count {a : Option (Amount .seconds)}
    (ha : ∀ b ∈ a, b.Canonical) :
    ∃ fraction < TimeUnit.seconds.nanos,
      writeSeconds (count a) fraction = a.elim [] Amount.spell
      ∧ a.elim 0 Amount.nanos
        = count a * TimeUnit.seconds.nanos + fraction := by
  cases a with
  | none => exact ⟨0, by decide, rfl, rfl⟩
  | some b =>
    have hb := ha b rfl
    refine ⟨b.fraction.elim 0 Fraction.nanos, ?_, ?_, rfl⟩
    · cases b.fraction with
      | none => decide
      | some f => exact f.nanos_lt
    · show writeSeconds b.whole.value _ = b.spell
      rw [writeSeconds, hb.plain.toDigits_value, Amount.spell]
      cases hf : b.fraction with
      | none => rw [if_neg fun h => hb.pos hf h.1]; rfl
      | some f =>
        have hf := hb.trimmed f hf
        rw [Option.elim_some, Option.elim_some, hf.writeFraction_nanos,
          if_neg fun h => hf.nanos_ne_zero h.2]

-- =========================================================== magnitudes

/-- Amounts that are smaller than the next larger unit are what their sum
is split into. -/
theorem split_units {hours minutes seconds fraction ofDay : Nat}
    (hminutes : minutes < 60) (hseconds : seconds < 60)
    (hfraction : fraction < TimeUnit.seconds.nanos)
    (hsum : ofDay = hours * TimeUnit.hours.nanos
      + minutes * TimeUnit.minutes.nanos
      + (seconds * TimeUnit.seconds.nanos + fraction)) :
    ofDay / TimeUnit.hours.nanos = hours
      ∧ ofDay % TimeUnit.hours.nanos / TimeUnit.minutes.nanos = minutes
      ∧ ofDay % TimeUnit.hours.nanos % TimeUnit.minutes.nanos
          / TimeUnit.seconds.nanos = seconds
      ∧ ofDay % TimeUnit.hours.nanos % TimeUnit.minutes.nanos
          % TimeUnit.seconds.nanos = fraction := by
  unfold TimeUnit.nanos at *
  dsimp only at *
  omega

theorem count_lt {unit : TimeUnit} {a : Option (Amount unit)} {n : Nat}
    (hn : 0 < n) (ha : ∀ b ∈ a, b.whole.value < n) : count a < n := by
  cases a with
  | none => exact hn
  | some b => exact ha b rfl

/-- An amount that is written is not zero. -/
theorem Amount.Canonical.nanos_ne_zero {unit : TimeUnit}
    {a : Amount unit} (h : a.Canonical) : a.nanos ≠ 0 := by
  have hunit : unit.nanos ≠ 0 := by cases unit <;> decide
  rw [Amount.nanos]
  cases hf : a.fraction with
  | none => exact Nat.mul_ne_zero (h.pos hf) hunit
  | some f =>
    have := (h.trimmed f hf).nanos_ne_zero
    rw [Option.elim_some]
    omega

theorem elim_nanos_ne_zero {unit : TimeUnit} {a : Option (Amount unit)}
    (hsome : a.isSome) (ha : ∀ b ∈ a, b.Canonical) :
    a.elim 0 Amount.nanos ≠ 0 := by
  obtain ⟨b, rfl⟩ := Option.isSome_iff_exists.1 hsome
  exact (ha b rfl).nanos_ne_zero

/-- What may follow the time mark is less than a day, and is what is
written for it. -/
theorem Time.Canonical.writeTime_nanos {t : Time} (h : t.Canonical) :
    writeTime t.nanos = t.spell ∧ t.nanos ≠ 0
      ∧ t.nanos < TimeUnit.days.nanos := by
  have hhours := count_lt (by decide) fun a ha => (h.hours a ha).2
  have hminutes := count_lt (by decide) fun a ha => (h.minutes a ha).2
  have hseconds := count_lt (by decide) fun a ha => (h.seconds a ha).2
  obtain ⟨hwrittenH, hnanosH⟩ :=
    writeAmount_count (by decide) fun a ha => (h.hours a ha).1
  obtain ⟨hwrittenM, hnanosM⟩ :=
    writeAmount_count (by decide) fun a ha => (h.minutes a ha).1
  obtain ⟨fraction, hfraction, hwrittenS, hnanosS⟩ :=
    writeSeconds_count fun a ha => (h.seconds a ha).1
  have hsum : t.nanos = count t.hours * TimeUnit.hours.nanos
      + count t.minutes * TimeUnit.minutes.nanos
      + (count t.seconds * TimeUnit.seconds.nanos + fraction) := by
    rw [Time.nanos, hnanosH, hnanosM, hnanosS]
  refine ⟨?_, ?_, ?_⟩
  · obtain ⟨hh, hm, hs, hf⟩ := split_units hminutes hseconds hfraction hsum
    rw [writeTime, hh, hm, hs, hf, hwrittenH, hwrittenM, hwrittenS]
    rfl
  · rw [Time.nanos]
    rcases t.nonempty with hsome | hsome | hsome
    · have := elim_nanos_ne_zero hsome fun a ha => (h.hours a ha).1
      omega
    · have := elim_nanos_ne_zero hsome fun a ha => (h.minutes a ha).1
      omega
    · have := elim_nanos_ne_zero hsome fun a ha => (h.seconds a ha).1
      omega
  · unfold TimeUnit.nanos at *
    dsimp only at *
    omega

namespace Written.Canonical

variable {l : Written}

theorem nanos_ne_zero (h : l.Canonical) : l.nanos ≠ 0 := by
  rw [Written.nanos]
  rcases l.nonempty with hsome | hsome
  · have := elim_nanos_ne_zero hsome h.days
    omega
  · obtain ⟨t, ht⟩ := Option.isSome_iff_exists.1 hsome
    have := (h.time t ht).writeTime_nanos.2.1
    rw [ht, Option.elim_some]
    omega

/-- A canonical literal is what is written for its sum. -/
theorem writeMagnitude_nanos (h : l.Canonical) :
    writeMagnitude l.nanos = l.body := by
  obtain ⟨hwritten, hnanos⟩ := writeAmount_count (by decide) h.days
  have hday : 0 < TimeUnit.days.nanos := by decide
  rw [writeMagnitude_eq, Written.nanos, Written.body, hnanos, ← hwritten,
    Nat.add_comm]
  cases htime : l.time with
  | none =>
    rw [Option.elim_none, Option.elim_none, Nat.zero_add,
      Nat.mul_div_cancel _ hday, Nat.mul_mod_left, if_pos rfl]
  | some t =>
    obtain ⟨htext, hne, hlt⟩ := (h.time t htime).writeTime_nanos
    rw [Option.elim_some, Option.elim_some, Nat.add_mul_div_right _ _ hday,
      Nat.add_mul_mod_self_right, Nat.div_eq_of_lt hlt, Nat.zero_add,
      Nat.mod_eq_of_lt hlt, if_neg hne, htext]

/-- A canonical literal is what is written for what it is read as. -/
theorem toChars_of_ofChars (h : l.Canonical) {d : Duration}
    (hd : ofChars l.spell = .ok d) : d.toChars = l.spell := by
  have hvalue := (ofChars_spell_eq_ok.1 hd).2
  rw [l.value_eq, Int.cast_inj, Written.negative] at hvalue
  have hpos := h.nanos_ne_zero
  have hwritten : writeMagnitude d.nanos.natAbs = l.body := by
    rw [← h.writeMagnitude_nanos, hvalue]
    split <;> simp
  rw [toChars, hwritten, Written.spell]
  rcases hsign : l.sign with _ | _ | _
  · have hd : d.nanos = l.nanos := by rw [hvalue, hsign]; rfl
    rw [if_neg (by omega), if_neg (by omega)]
    rfl
  · exact absurd hsign h.sign
  · have hd : d.nanos = -l.nanos := by rw [hvalue, hsign]; rfl
    rw [if_neg (by omega), if_pos (by omega)]
    rfl

end Written.Canonical

-- ====================================================== the whole text

/-- A canonical text. No time at all is the one duration that cannot do
without an amount of zero. -/
def Canonical (text : String) : Prop :=
  text = "PT0S" ∨ ∃ l : Written, text.toList = l.spell ∧ l.Canonical

theorem render_zero {d : Duration} (h : d.nanos = 0) :
    d.render = "PT0S" := by
  rw [render, toChars, if_pos h]

/-- What is written is canonical. -/
theorem canonical_render (d : Duration) : Canonical d.render := by
  by_cases hzero : d.nanos = 0
  · exact .inl (render_zero hzero)
  · let sign : Option Sign := if d.nanos < 0 then some .minus else none
    have hsign : sign ≠ some .plus := by
      unfold sign
      split <;> simp
    obtain ⟨l, hl, hwritten, -, hcanonical⟩ :=
      exists_writeMagnitude (Int.natAbs_ne_zero.2 hzero) hsign
    refine .inr ⟨l, ?_, hcanonical⟩
    rw [render, String.toList_ofList, toChars, if_neg hzero, hwritten,
      Written.spell, hl]
    unfold sign
    split <;> rfl

/-- And of a canonical text nothing else is written. -/
theorem render_of_canonical {text : String} {d : Duration}
    (h : Canonical text) (hd : parse text = .ok d) : d.render = text := by
  rcases h with rfl | ⟨l, htext, hcanonical⟩
  · have hspell : "PT0S".toList = Written.zero.spell := rfl
    rw [parse, hspell] at hd
    have hvalue := (ofChars_spell_eq_ok.1 hd).2
    rw [Written.value_eq, Int.cast_inj] at hvalue
    exact render_zero hvalue
  · rw [parse, htext] at hd
    rw [render, hcanonical.toChars_of_ofChars hd, ← htext,
      String.ofList_toList]

/-- What is written is canonical, and a canonical text is what is written
for what it is read as. -/
theorem render_canonical :
    (∀ d : Duration, Canonical d.render)
      ∧ ∀ (text : String) (d : Duration), Canonical text →
        parse text = .ok d → d.render = text :=
  ⟨canonical_render, fun _ _ => render_of_canonical⟩

/-- A day and half a second, backwards. -/
def dayAndHalf : Written where
  sign := some .minus
  days := some ⟨.ofNat 1, none, fun h => nomatch h⟩
  time := some ⟨none, none, some ⟨.ofNat 0,
    some ⟨'.', .ofNat 5, .inl rfl, by decide⟩, fun _ => rfl⟩, .inr (.inr rfl)⟩
  nonempty := .inl rfl

theorem dayAndHalf_canonical : dayAndHalf.Canonical where
  sign := by decide
  days := by
    rintro _ ⟨⟩
    exact ⟨Numeral.plain_ofNat 1, by decide, fun _ h => nomatch h⟩
  time := by
    rintro _ ⟨⟩
    refine ⟨fun _ h => (nomatch h), fun _ h => (nomatch h), ?_⟩
    rintro _ ⟨⟩
    refine ⟨⟨Numeral.plain_ofNat 0, (fun h => nomatch h), ?_⟩, by decide⟩
    rintro _ ⟨⟩
    exact ⟨rfl, by decide⟩

theorem render_canonical_dayAndHalf :
    ∃ d : Duration, d.nanos = -86400500000000
      ∧ Canonical "-P1DT0.5S" ∧ parse "-P1DT0.5S" = .ok d
      ∧ d.render = "-P1DT0.5S" := by
  have hcanonical : Canonical "-P1DT0.5S" :=
    .inr ⟨dayAndHalf, rfl, dayAndHalf_canonical⟩
  have hparse : parse "-P1DT0.5S" = .ok ⟨-86400500000000, by decide⟩ := by
    show ofChars dayAndHalf.spell = _
    rw [ofChars_spell]
    rfl
  exact ⟨_, rfl, hcanonical, hparse,
    render_canonical.2 _ _ hcanonical hparse⟩

end Purview.Duration

/-
A literal that cannot be read is refused for something that its text
shows. Each cause points at an offset at which a character starts, or
the text ends, and what it says of the character there is so
(`LiteralError.Shows`).

The readers know their offset only by counting, so what is carried along
is that the count is right: from the offset on, the text is just what is
left to read (`RestAt`). That is also what an access by offset needs in
order to be granted (`RestAt.byteAt?`, `RestAt.slice?`). The two ways of
reading are therefore taken together, one reader after the other: where
reading by characters goes on, reading by offsets is at the same place,
and where it stops, the other stops with the same cause, and the text
shows it (`Follows`).
-/
import Purview.Proofs.Durations
import Purview.Proofs.Indexed
import Purview.Proofs.Quotations

namespace Purview

variable {text : String} {offset : Nat} {c : Char} {cs rest : List Char}

-- =============================================================== places

/-- What a text has from an offset on. -/
def RestAt (text : String) (offset : Nat) (rest : List Char) : Prop :=
  ∃ front, text.toList = front ++ rest ∧ String.utf8Len front = offset

namespace RestAt

/-- At the start there is the whole text. -/
theorem zero (text : String) : RestAt text 0 text.toList := ⟨[], rfl, rfl⟩

/-- At the end there is nothing left. -/
theorem utf8ByteSize (text : String) : RestAt text text.utf8ByteSize [] :=
  ⟨text.toList, by rw [List.append_nil], String.utf8Len_toList text⟩

/-- Behind some characters of the rest stands what follows them. -/
theorem skip {taken : List Char} (h : RestAt text offset (taken ++ rest)) :
    RestAt text (offset + String.utf8Len taken) rest := by
  obtain ⟨front, htext, rfl⟩ := h
  exact ⟨front ++ taken, by rw [htext, List.append_assoc],
    String.utf8Len_append _ _⟩

theorem next (h : RestAt text offset (c :: rest)) :
    RestAt text (offset + c.utf8Size) rest := by
  have hskip : RestAt text offset ([c] ++ rest) := h
  simpa using hskip.skip

theorem next_byte (h : RestAt text offset (c :: rest))
    (hc : c.toNat < 128) : RestAt text (offset + 1) rest := by
  have hsize : c.utf8Size = 1 := Char.utf8Size_eq_one_iff.2
    (UInt32.le_iff_toNat_le.2 (Nat.le_of_lt_succ hc))
  exact hsize ▸ h.next

/-- What has been passed and what is left make up the text. -/
theorem size (h : RestAt text offset rest) :
    offset + String.utf8Len rest = text.utf8ByteSize := by
  obtain ⟨front, htext, rfl⟩ := h
  rw [← String.utf8Len_toList, htext, String.utf8Len_append]

/-- Where a character is left, the text has not ended. -/
theorem lt_size (h : RestAt text offset (c :: rest)) :
    offset < text.utf8ByteSize := by
  have hpos := Char.utf8Size_pos c
  have hsize := h.size
  rw [String.utf8Len_cons] at hsize
  omega

theorem not_lt_size (h : RestAt text offset []) :
    ¬offset < text.utf8ByteSize := by
  rw [← h.size]
  exact Nat.lt_irrefl _

/-- An offset at which something is left is a position in the text. -/
theorem isValid (h : RestAt text offset rest) :
    String.Pos.Raw.IsValid text ⟨offset⟩ := by
  obtain ⟨front, htext, rfl⟩ := h
  refine String.Pos.Raw.isValid_iff_exists_append.2
    ⟨String.ofList front, String.ofList rest, ?_, ?_⟩
  · rw [← String.ofList_append, ← htext, String.ofList_toList]
  · exact congrArg String.Pos.Raw.mk (String.utf8ByteSize_ofList front).symm

/-- The span of the characters at an offset has them. -/
theorem slice? {taken : List Char} (h : RestAt text offset (taken ++ rest)) :
    Span.slice? ⟨offset, offset + String.utf8Len taken⟩ text
      = some (String.ofList taken) := by
  obtain ⟨front, htext, rfl⟩ := h
  have hparts : text.toList
      = front ++ ((String.ofList taken).toList ++ rest) := by
    rw [htext, String.toList_ofList]
  rw [← String.utf8ByteSize_ofList taken]
  exact Span.slice?_of_append hparts

/-- And the span up to the end has all that is left. -/
theorem slice?_rest (h : RestAt text offset rest) :
    Span.slice? ⟨offset, text.utf8ByteSize⟩ text
      = some (String.ofList rest) := by
  have hall : RestAt text offset (rest ++ []) := by rwa [List.append_nil]
  rw [← h.size]
  exact hall.slice?

end RestAt

-- ================================================================ bytes

/-- The first byte of a character. -/
def leadByte (c : Char) : UInt8 := (String.utf8EncodeChar c).headD 0

theorem head?_utf8EncodeChar (c : Char) :
    (String.utf8EncodeChar c).head? = some (leadByte c) := by
  have hpos := Char.utf8Size_pos c
  rw [← String.length_utf8EncodeChar] at hpos
  obtain ⟨b, bs, hbs⟩ := List.exists_cons_of_length_pos hpos
  rw [leadByte, hbs]
  rfl

/-- A character is its own first byte, or neither is ASCII. -/
theorem leadByte_cases (c : Char) :
    (leadByte c).toNat = c.toNat ∧ c.toNat < 128
      ∨ 128 ≤ (leadByte c).toNat ∧ 128 ≤ c.toNat := by
  have hv : c.toNat = c.val.toNat := rfl
  rw [leadByte, String.utf8EncodeChar.eq_def, hv]
  dsimp only
  split
  · next h =>
    left
    simp
    omega
  right
  split
  · simp
    omega
  split
  · simp
    omega
  · simp
    omega

/-- To look for an ASCII character is to look for its byte. -/
theorem leadByte_eq_iff {a : Char} (ha : a.toNat < 128) :
    leadByte c = a.toUInt8 ↔ c = a := by
  have hbyte : a.toUInt8.toNat = a.toNat :=
    Nat.mod_eq_of_lt (Nat.lt_trans ha (by decide))
  constructor
  · intro h
    rw [← h] at hbyte
    rcases leadByte_cases c with ⟨heq, -⟩ | ⟨hle, -⟩
    · exact Char.toNat_inj.1 (heq.symm.trans hbyte)
    · omega
  · rintro rfl
    rcases leadByte_cases c with ⟨heq, -⟩ | ⟨-, hle⟩
    · exact UInt8.toNat_inj.1 (heq.trans hbyte.symm)
    · omega

theorem head?_leadByte_iff {a : Char} (ha : a.toNat < 128) :
    cs.head?.map leadByte = some a.toUInt8 ↔ cs.head? = some a := by
  cases cs with
  | nil => exact iff_of_false (by simp) (by simp)
  | cons c cs => simp [leadByte_eq_iff ha]

/-- Digits can be told by their bytes. -/
theorem isDigitByte_leadByte (c : Char) :
    Duration.isDigitByte (leadByte c) = c.isDigit := by
  have hzero : '0'.toUInt8.toNat = '0'.toNat := rfl
  have hnine : '9'.toUInt8.toNat = '9'.toNat := rfl
  have hascii : '9'.toNat < 128 := by decide
  rw [Duration.isDigitByte, Bool.eq_iff_iff, Bool.and_eq_true,
    decide_eq_true_eq, decide_eq_true_eq, UInt8.le_iff_toNat_le,
    UInt8.le_iff_toNat_le, hzero, hnine, Char.isDigit_iff_toNat]
  rcases leadByte_cases c with h | h <;> omega

theorem length_flatMap_utf8EncodeChar (cs : List Char) :
    (cs.flatMap String.utf8EncodeChar).length = String.utf8Len cs := by
  induction cs with
  | nil => rfl
  | cons c cs ih =>
    rw [List.flatMap_cons, List.length_append, ih,
      String.length_utf8EncodeChar, String.utf8Len_cons, Nat.add_comm]

theorem toList_toUTF8 (text : String) :
    text.toUTF8.data.toList = text.toList.flatMap String.utf8EncodeChar := by
  rw [String.toUTF8_eq_toByteArray, ← String.utf8Encode_toList]
  simp [List.utf8Encode]

/-- The byte at an offset is the first one of the character there. -/
theorem RestAt.byteAt? (h : RestAt text offset (c :: rest)) :
    byteAt? text offset = some (leadByte c) := by
  obtain ⟨front, htext, rfl⟩ := h
  have hbyte : text.toUTF8.data[String.utf8Len front]? = some (leadByte c) := by
    rw [← Array.getElem?_toList, toList_toUTF8, htext, List.flatMap_append,
      List.flatMap_cons, ← length_flatMap_utf8EncodeChar,
      List.getElem?_append_right (Nat.le_refl _), Nat.sub_self,
      ← List.head?_eq_getElem?, List.head?_append, head?_utf8EncodeChar]
    rfl
  rw [Purview.byteAt?, htext, splitBytes?_append, hbyte]
  rfl

/-- Peeking is granted at every offset that reading comes to. -/
theorem RestAt.peekAt? (h : RestAt text offset rest) :
    peekAt? text offset = some (rest.head?.map leadByte) := by
  rw [Purview.peekAt?]
  cases rest with
  | nil => rw [if_neg h.not_lt_size]; rfl
  | cons c rest => rw [if_pos h.lt_size, h.byteAt?]; rfl

-- =============================================================== causes

/-- What a cause says of the text at the offset it points at: that one
character is missing there, or that another stands there. The other
causes only point at the start of a character. -/
def LiteralError.Shows (text : String) : LiteralError → Prop
  | expected wanted offset =>
    ∃ rest, RestAt text offset rest ∧ rest.head? ≠ some wanted
  | unexpected found offset => ∃ rest, RestAt text offset (found :: rest)
  | invalidEscape found offset =>
    ∃ before rest, RestAt text before ('\\' :: found :: rest)
      ∧ offset = before + 1
  | outOfOrder offset | fractionNotAllowed offset | tooPrecise offset =>
    ∃ rest, RestAt text offset rest
  | empty | noComponents | overflow => True

/-- How reading by offsets follows reading by characters: it stops for
the same cause, which the text shows, or reaches what corresponds. -/
def Follows {α β : Type} (text : String)
    (indexed : Option (Except LiteralError β)) (read : Except LiteralError α)
    (Reached : α → β → Prop) : Prop :=
  match read with
  | .error err => indexed = some (.error err) ∧ err.Shows text
  | .ok a => ∃ b, indexed = some (.ok b) ∧ Reached a b

-- ============================================================= durations

namespace Duration

theorem toNat_lt_of_isDigit (h : c.isDigit) : c.toNat < 128 := by
  have hc := (Char.isDigit_iff_toNat.1 h).2
  have hnine : '9'.toNat < 128 := by decide
  omega

/-- Digits are bytes. -/
theorem restAt_digits {start : Nat} (h : RestAt text start cs) :
    RestAt text (start + (cs.takeWhile Char.isDigit).length)
      (cs.dropWhile Char.isDigit) := by
  induction cs generalizing start with
  | nil => exact h
  | cons c cs ih =>
    by_cases hc : c.isDigit
    · rw [List.takeWhile_cons_of_pos hc, List.dropWhile_cons_of_pos hc,
        List.length_cons, Nat.add_comm _ 1, ← Nat.add_assoc]
      exact ih (RestAt.next_byte h (toNat_lt_of_isDigit hc))
    · rw [List.takeWhile_cons_of_neg hc, List.dropWhile_cons_of_neg hc]
      exact h

theorem slice?_digits {start : Nat} (h : RestAt text start cs) :
    Span.slice? ⟨start, start + (cs.takeWhile Char.isDigit).length⟩ text
      = some (String.ofList (cs.takeWhile Char.isDigit)) := by
  have hall : RestAt text start
      (cs.takeWhile Char.isDigit ++ cs.dropWhile Char.isDigit) := by
    rwa [List.takeWhile_append_dropWhile]
  have hlength : String.utf8Len (cs.takeWhile Char.isDigit)
      = (cs.takeWhile Char.isDigit).length := by
    have hskip := hall.skip.size
    have hdigits := (restAt_digits h).size
    omega
  rw [← hlength]
  exact hall.slice?

/-- Skipping bytes skips the digits. -/
theorem skipDigits?_eq {start : Nat} (h : RestAt text start cs) :
    skipDigits? text start
      = some ⟨start + (cs.takeWhile Char.isDigit).length,
        Nat.le_add_right _ _⟩ := by
  induction cs generalizing start with
  | nil =>
    rw [skipDigits?, dif_neg h.not_lt_size]
    rfl
  | cons c cs ih =>
    rw [skipDigits?, dif_pos h.lt_size, h.byteAt?]
    simp only [Option.bind_eq_bind, Option.bind_some, isDigitByte_leadByte]
    split
    · next hc =>
      rw [ih (RestAt.next_byte h (toNat_lt_of_isDigit hc))]
      refine congrArg some (Subtype.ext ?_)
      simp only [List.takeWhile_cons_of_pos hc, List.length_cons]
      omega
    · next hc =>
      simp only [List.takeWhile_cons_of_neg hc]
      rfl

/-- What is reported of an offset is what stands there. -/
theorem misplacedAt?_eq (h : RestAt text offset rest) :
    misplacedAt? text offset = some (misplaced offset rest) := by
  rw [misplacedAt?, h.slice?_rest]
  simp [String.toList_ofList]

/-- And the text shows it. -/
theorem shows_misplaced (h : RestAt text offset rest) :
    (misplaced offset rest).Shows text := by
  cases rest with
  | nil => exact ⟨[], h, by simp⟩
  | cons c rest => exact ⟨rest, h⟩

/-- A number is read up to the limit of the counter, and refused from
there on. -/
theorem number?_eq {digits : List Char} (h : ∀ c ∈ digits, c.isDigit)
    (hne : digits ≠ []) :
    number? (String.ofList digits)
      = if sumLimit ≤ Nat.ofDigitChars 10 digits 0 then none
        else some (Nat.ofDigitChars 10 digits 0) := by
  have hall : digits.all Char.isDigit = true := List.all_eq_true.2 h
  rw [number?, String.toList_ofList]
  split
  · next hwritten => rw [if_neg (Nat.not_le.2 hwritten.2.2)]
  · next hwritten =>
    rw [if_pos]
    by_contra hlarge
    exact hwritten ⟨by simpa using hne, hall, Nat.not_le.1 hlarge⟩

/-- Units are known by the byte of their letter. -/
theorem unitOfByte?_leadByte (timed : Bool) (c : Char) :
    unitOfByte? timed (leadByte c) = TimeUnit.ofLetter? timed c := by
  have hH : leadByte c = 'H'.toUInt8 ↔ c = 'H' := leadByte_eq_iff (by decide)
  have hM : leadByte c = 'M'.toUInt8 ↔ c = 'M' := leadByte_eq_iff (by decide)
  have hS : leadByte c = 'S'.toUInt8 ↔ c = 'S' := leadByte_eq_iff (by decide)
  have hD : leadByte c = 'D'.toUInt8 ↔ c = 'D' := leadByte_eq_iff (by decide)
  simp only [unitOfByte?, TimeUnit.ofLetter?, hH, hM, hS, hD]

/-- The digits of a fraction do not outgrow the counter. -/
theorem ofDigitChars_lt_sumLimit {digits : List Char}
    (h : ∀ c ∈ digits, c.isDigit) (hshort : digits.length ≤ fractionDigits) :
    Nat.ofDigitChars 10 digits 0 < sumLimit :=
  calc Nat.ofDigitChars 10 digits 0
      < 10 ^ digits.length := ofDigitChars_lt h
    _ ≤ 10 ^ fractionDigits := Nat.pow_le_pow_right (by decide) hshort
    _ < sumLimit := by decide

/-- A fraction is read by offsets as it is by characters. -/
theorem fractionAt?_follows {start : Nat} (h : RestAt text start cs) :
    Follows text (fractionAt? text start) (readFraction start cs)
      fun (fraction, stop, rest) b =>
        b.1 = fraction ∧ b.2.1 = stop ∧ RestAt text stop rest := by
  rw [fractionAt?, h.peekAt?]
  cases cs with
  | nil => exact ⟨_, rfl, rfl, rfl, h⟩
  | cons c cs =>
    have hmark : (leadByte c = '.'.toUInt8 ∨ leadByte c = ','.toUInt8)
        ↔ (c = '.' ∨ c = ',') := by
      rw [leadByte_eq_iff (by decide), leadByte_eq_iff (by decide)]
    simp only [List.head?_cons, Option.map_some, Option.bind_eq_bind,
      Option.bind_some, hmark]
    rw [readFraction]
    split
    · next hc =>
      have hnext : RestAt text (start + 1) cs :=
        RestAt.next_byte h (by rcases hc with rfl | rfl <;> decide)
      have hdigits : ∀ d ∈ cs.takeWhile Char.isDigit, d.isDigit :=
        fun d hd => List.mem_takeWhile_imp hd
      rw [skipDigits?_eq hnext]
      simp only [Option.bind_some, Nat.add_sub_cancel_left,
        slice?_digits hnext]
      split
      · next hnone =>
        have hplace := restAt_digits hnext
        rw [hnone, Nat.add_zero] at hplace
        simp only [hnone, Nat.add_zero, misplacedAt?_eq hplace]
        exact ⟨rfl, shows_misplaced hplace⟩
      next hsome =>
      split
      · exact ⟨rfl, _, hnext⟩
      next hshort =>
      have hsmall := ofDigitChars_lt_sumLimit hdigits (Nat.not_lt.1 hshort)
      rw [number?_eq hdigits (fun hnil => hsome (by rw [hnil]; rfl)),
        if_neg (Nat.not_le.2 hsmall)]
      exact ⟨_, rfl, rfl, rfl, restAt_digits hnext⟩
    · exact ⟨_, rfl, rfl, rfl, h⟩

/-- So is a component. -/
theorem componentAt?_follows {r : Reading} (h : RestAt text r.offset cs) :
    Follows text (componentAt? text r) (readComponent r cs)
      fun (r', rest) b => b.1 = r' ∧ RestAt text r'.offset rest := by
  have hplace := restAt_digits h
  have hdigits : ∀ d ∈ cs.takeWhile Char.isDigit, d.isDigit :=
    fun d hd => List.mem_takeWhile_imp hd
  rw [componentAt?, skipDigits?_eq h, readComponent]
  simp only [Option.bind_eq_bind, Option.bind_some, Nat.add_eq_left,
    slice?_digits h]
  split
  · next hnone =>
    rw [hnone, Nat.add_zero] at hplace
    simp only [hnone, Nat.add_zero, misplacedAt?_eq hplace]
    exact ⟨rfl, shows_misplaced hplace⟩
  next hsome =>
  rw [number?_eq hdigits (fun hnil => hsome (by rw [hnil]; rfl))]
  by_cases hlarge :
      sumLimit ≤ Nat.ofDigitChars 10 (cs.takeWhile Char.isDigit) 0
  · rw [if_pos hlarge, if_pos hlarge]
    exact ⟨rfl, trivial⟩
  rw [if_neg hlarge, if_neg hlarge]
  have hfraction := fractionAt?_follows hplace
  cases hread : readFraction (r.offset + (cs.takeWhile Char.isDigit).length)
      (cs.dropWhile Char.isDigit) with
  | error err =>
    rw [hread] at hfraction
    obtain ⟨heq, hshows⟩ := hfraction
    rw [heq]
    exact ⟨rfl, hshows⟩
  | ok out =>
    obtain ⟨fraction, stop, rest⟩ := out
    rw [hread] at hfraction
    obtain ⟨⟨f, stop', hle⟩, heq, rfl, rfl, hrest⟩ := hfraction
    rw [heq]
    simp only [Option.bind_some, hrest.peekAt?]
    cases rest with
    | nil => exact ⟨rfl, [], hrest, by simp⟩
    | cons c rest =>
      simp only [List.head?_cons, Option.map_some, unitOfByte?_leadByte,
        misplacedAt?_eq hrest]
      cases hunit : TimeUnit.ofLetter? r.timed c with
      | none => exact ⟨rfl, rest, hrest⟩
      | some unit =>
        have hascii : c.toNat < 128 := by
          obtain ⟨-, rfl⟩ := eq_of_ofLetter? hunit
          cases unit <;> decide
        dsimp only
        split
        · exact ⟨rfl, _, hrest⟩
        split
        · exact ⟨rfl, _, hrest⟩
        split
        · exact ⟨rfl, trivial⟩
        · exact ⟨_, rfl, rfl, RestAt.next_byte hrest hascii⟩

/-- One step of reading components, where the text goes on. -/
theorem componentsAt?_cons {r : Reading} (h : RestAt text r.offset (c :: cs)) :
    componentsAt? text r
      = if c = 'T' then
          if r.timed then some (.error (misplaced r.offset (c :: cs)))
          else componentsAt? text ⟨r.offset + 1, true, r.last, r.total⟩
        else
          (componentAt? text r).bind fun
            | .error err => some (.error err)
            | .ok next => componentsAt? text next.1 := by
  have hmark : leadByte c = 'T'.toUInt8 ↔ c = 'T' := leadByte_eq_iff (by decide)
  rw [componentsAt?, dif_pos h.lt_size, h.byteAt?]
  simp only [Option.bind_eq_bind, Option.bind_some, hmark, misplacedAt?_eq h]
  split
  · rfl
  · exact Option.bind_congr fun next _ => by cases next <;> rfl

/-- And so are all components up to the end of the text. -/
theorem componentsAt?_follows {r : Reading} (h : RestAt text r.offset cs) :
    Follows text (componentsAt? text r) (readComponents r cs)
      fun r' b => b = r' ∧ r'.offset = text.utf8ByteSize := by
  fun_induction readComponents r cs with
  | case1 r =>
    have hsize : r.offset = text.utf8ByteSize := h.size
    rw [componentsAt?, dif_neg (by omega)]
    exact ⟨r, rfl, rfl, hsize⟩
  | case2 r rest ht =>
    rw [componentsAt?_cons h, if_pos rfl, if_pos ht]
    exact ⟨rfl, rest, h⟩
  | case3 r rest ht ih =>
    rw [componentsAt?_cons h, if_pos rfl, if_neg ht]
    exact ih (RestAt.next_byte h (by decide))
  | case4 r c rest hc err herr =>
    have hcomponent := componentAt?_follows h
    rw [herr] at hcomponent
    obtain ⟨heq, hshows⟩ := hcomponent
    rw [componentsAt?_cons h, if_neg hc, heq]
    exact ⟨rfl, hshows⟩
  | case5 r c rest hc next tail hread ih =>
    have hcomponent := componentAt?_follows h
    rw [hread] at hcomponent
    obtain ⟨⟨next', hlt⟩, heq, rfl, htail⟩ := hcomponent
    rw [componentsAt?_cons h, if_neg hc, heq]
    exact ih htail

theorem readSign_cons (c : Char) (cs : List Char) :
    readSign (c :: cs)
      = (decide (c = '-'), if c = '-' ∨ c = '+' then 1 else 0,
        if c = '-' ∨ c = '+' then cs else c :: cs) := by
  unfold readSign
  split <;> simp_all

/-- A sign is one byte. -/
theorem restAt_readSign (h : RestAt text 0 (c :: cs)) :
    RestAt text (if c = '-' ∨ c = '+' then 1 else 0)
      (if c = '-' ∨ c = '+' then cs else c :: cs) := by
  split
  · next hsign =>
    have hnext := RestAt.next_byte h (by rcases hsign with rfl | rfl <;> decide)
    rwa [Nat.zero_add] at hnext
  · exact h

/-- A whole duration is read the same either way. -/
theorem parseAt?_follows (text : String) :
    Follows text (parseAt? text) (parse text) fun d b => b = d := by
  have hzero := RestAt.zero text
  rw [parseAt?, parse, ofChars]
  cases hcs : text.toList with
  | nil =>
    have hsize : text.utf8ByteSize = 0 := by
      rw [← String.utf8Len_toList, hcs]
      rfl
    rw [if_pos hsize]
    exact ⟨rfl, trivial⟩
  | cons c cs =>
    rw [hcs] at hzero
    have hminus : leadByte c = '-'.toUInt8 ↔ c = '-' :=
      leadByte_eq_iff (by decide)
    have hplus : leadByte c = '+'.toUInt8 ↔ c = '+' :=
      leadByte_eq_iff (by decide)
    have hstart := restAt_readSign hzero
    rw [if_neg (Nat.ne_of_gt hzero.lt_size), readSign_cons,
      List.isEmpty_cons, if_neg Bool.false_ne_true]
    simp only [hzero.byteAt?, Option.bind_eq_bind, Option.bind_some, hminus,
      hplus]
    generalize (if c = '-' ∨ c = '+' then 1 else 0) = start at hstart ⊢
    generalize (if c = '-' ∨ c = '+' then cs else c :: cs) = unsigned
      at hstart ⊢
    have hpeek : unsigned.head?.map leadByte = some 'P'.toUInt8
        ↔ unsigned.head? = some 'P' := head?_leadByte_iff (by decide)
    simp only [hstart.peekAt?, Option.bind_some, ne_eq, hpeek]
    by_cases hp : unsigned.head? = some 'P'
    case neg =>
      rw [if_pos hp]
      split
      · exact absurd rfl hp
      · exact ⟨rfl, unsigned, hstart, hp⟩
    obtain ⟨rest, rfl⟩ := List.head?_eq_some_iff.1 hp
    rw [if_neg (not_not.2 hp)]
    have hrest : RestAt text (start + 1) rest :=
      RestAt.next_byte hstart (by decide)
    have hread : Follows text
        (componentsAt? text ⟨start + 1, false, none, 0⟩)
        (readComponents ⟨start + 1, false, none, 0⟩ rest)
        fun r' b => b = r' ∧ r'.offset = text.utf8ByteSize :=
      componentsAt?_follows hrest
    cases hcomponents : readComponents ⟨start + 1, false, none, 0⟩ rest with
    | error err =>
      rw [hcomponents] at hread
      obtain ⟨heq, hshows⟩ := hread
      rw [heq]
      simp only [hcomponents]
      exact ⟨rfl, hshows⟩
    | ok r =>
      rw [hcomponents] at hread
      obtain ⟨r', heq, rfl, hend⟩ := hread
      rw [heq]
      simp only [hcomponents, Option.bind_some, hend]
      split
      · exact ⟨rfl, [], RestAt.utf8ByteSize text, by simp⟩
      split
      · exact ⟨rfl, trivial⟩
      cases hmagnitude : ofMagnitude? (decide (c = '-')) r'.total with
      | none => exact ⟨rfl, trivial⟩
      | some d => exact ⟨d, rfl, rfl⟩

end Duration

-- =========================================================== quoted texts

namespace Quoted

/-- A quote between the quotes is refused. -/
theorem decodeBody_quote (stop here : Nat) (body : List Char) :
    decodeBody stop here ('"' :: body) = .error (.unexpected '"' here) := by
  rw [decodeBody.eq_def]
  rfl

/-- The characters with their offsets are read as they are without. -/
theorem decodeIndices_eq (stop : Nat) : ∀ (offset : Nat) (body : List Char),
    decodeIndices stop (indices offset body)
      = decodeBody stop (offset + 1) body
  | _, [] => rfl
  | offset, c :: rest => by
    by_cases hescape : c = '\\'
    · subst hescape
      cases rest with
      | nil => rfl
      | cons e rest =>
        have hnext : indices offset ('\\' :: e :: rest)
            = (offset, '\\') :: (offset + 1, e)
              :: indices (offset + 1 + e.utf8Size) rest := rfl
        rw [hnext, decodeIndices, if_pos rfl]
        cases he : unescape? e with
        | none => rw [decodeBody_invalid he]
        | some d =>
          rw [decodeBody_escaped he, Nat.add_right_comm (offset + 1),
            ← decodeIndices_eq stop (offset + 1 + e.utf8Size) rest]
    rw [indices, decodeIndices.eq_def]
    simp only [hescape, if_false]
    by_cases hquote : c = '"'
    · rw [if_pos hquote, hquote, decodeBody_quote]
    · rw [if_neg hquote, decodeBody_plain hquote hescape,
        decodeIndices_eq stop _ rest, Nat.add_right_comm]

theorem error_of_map {α β : Type} {f : α → β} {r : Except LiteralError α}
    {err : LiteralError} (h : r.map f = .error err) : r = .error err := by
  cases r with
  | error e => cases h; rfl
  | ok a => cases h

/-- The reader between the quotes refuses what is there. -/
theorem shows_decodeBody {err : LiteralError} :
    ∀ {here : Nat} {body : List Char}, RestAt text here (body ++ ['"']) →
      decodeBody text.utf8ByteSize here body = .error err → err.Shows text
  | _, [], _, hread => by cases hread
  | here, c :: rest, h, hread => by
    by_cases hescape : c = '\\'
    · subst hescape
      cases rest with
      | nil =>
        cases hread
        exact ⟨[], RestAt.utf8ByteSize text, by simp⟩
      | cons e rest =>
        cases he : unescape? e with
        | none =>
          rw [decodeBody_invalid he] at hread
          cases hread
          exact ⟨here, rest ++ ['"'], h, rfl⟩
        | some d =>
          rw [decodeBody_escaped he] at hread
          exact shows_decodeBody h.next.next (error_of_map hread)
    by_cases hquote : c = '"'
    · subst hquote
      rw [decodeBody_quote] at hread
      cases hread
      exact ⟨_, h⟩
    · rw [decodeBody_plain hquote hescape] at hread
      exact shows_decodeBody h.next (error_of_map hread)

end Quoted

/-- Between two quotes, both ways of reading read the same. -/
theorem unquoteAt?_closed {body : List Char}
    (h : text.toList = '"' :: (body ++ ['"'])) :
    unquoteAt? text
      = some ((Quoted.decodeBody text.utf8ByteSize 1 body).map
        String.ofList) := by
  have hzero : RestAt text 0 ('"' :: (body ++ ['"'])) := h ▸ RestAt.zero text
  have hbody : RestAt text 1 (body ++ ['"']) := hzero.next
  have hend : 1 + String.utf8Len body + 1 = text.utf8ByteSize := hbody.skip.size
  have hclosed : ¬(text.utf8ByteSize < 2
      ∨ text.toList.getLast? ≠ some '"') := by
    rw [h, not_or, not_not, ← List.cons_append, List.getLast?_concat]
    exact ⟨by omega, rfl⟩
  rw [unquoteAt?, if_neg (Nat.ne_of_gt hzero.lt_size), if_neg (by simp [h]),
    if_neg hclosed,
    show text.utf8ByteSize - 1 = 1 + String.utf8Len body by omega, hbody.slice?]
  simp only [Option.bind_eq_bind, Option.bind_some, String.toList_ofList,
    Quoted.decodeIndices_eq]
  rfl

/-- Quoted text is read the same either way. -/
theorem unquoteAt?_follows (text : String) :
    Follows text (unquoteAt? text) (unquote text) fun s b => b = s := by
  have hzero := RestAt.zero text
  rw [unquote, Quoted.decode]
  cases hcs : text.toList with
  | nil =>
    have hsize : text.utf8ByteSize = 0 := by
      rw [← String.utf8Len_toList, hcs]
      rfl
    rw [unquoteAt?, if_pos hsize]
    exact ⟨rfl, trivial⟩
  | cons q rest =>
    rw [hcs] at hzero
    have hsize : String.utf8Len (q :: rest) = text.utf8ByteSize := by
      rw [← hcs, String.utf8Len_toList]
    have hne := Nat.ne_of_gt hzero.lt_size
    by_cases hq : q = '"'
    case neg =>
      rw [unquoteAt?, if_neg hne, if_pos (by simpa [hcs] using hq)]
      simp only [ne_eq, hq, not_false_eq_true, if_true]
      exact ⟨rfl, q :: rest, hzero, by simpa using hq⟩
    subst hq
    simp only [ne_eq, not_true, if_false]
    by_cases hlast : rest.getLast? = some '"'
    case neg =>
      have hopen : text.utf8ByteSize < 2
          ∨ text.toList.getLast? ≠ some '"' := by
        rw [hcs]
        cases rest with
        | nil => exact .inl (hsize ▸ by decide)
        | cons c cs => exact .inr (by rwa [List.getLast?_cons_cons])
      rw [unquoteAt?, if_neg hne, if_neg (by simp [hcs]), if_pos hopen,
        if_pos hlast]
      exact ⟨rfl, [], RestAt.utf8ByteSize text, by simp⟩
    obtain ⟨body, rfl⟩ := List.getLast?_eq_some_iff.1 hlast
    rw [unquoteAt?_closed hcs, if_neg (not_not.2 hlast), List.dropLast_concat]
    cases hread : Quoted.decodeBody text.utf8ByteSize 1 body with
    | error err => exact ⟨rfl, Quoted.shows_decodeBody hzero.next hread⟩
    | ok cs => exact ⟨_, rfl, rfl⟩

-- ============================================================= located

/-- A cause points at the start of a character or the end of the text. -/
theorem LiteralError.Shows.isValid {err : LiteralError}
    (h : err.Shows text) (hoffset : err.offset? = some offset) :
    String.Pos.Raw.IsValid text ⟨offset⟩ := by
  cases err with
  | empty | noComponents | overflow => cases hoffset
  | expected wanted o =>
    cases hoffset
    obtain ⟨rest, hrest, -⟩ := h
    exact hrest.isValid
  | unexpected found o =>
    cases hoffset
    obtain ⟨rest, hrest⟩ := h
    exact hrest.isValid
  | invalidEscape found o =>
    cases hoffset
    obtain ⟨before, rest, hrest, rfl⟩ := h
    exact hrest.next.isValid
  | outOfOrder o | fractionNotAllowed o | tooPrecise o =>
    cases hoffset
    obtain ⟨rest, hrest⟩ := h
    exact hrest.isValid

/-- A cause is right about the text: it points into it, and at what it
says. -/
structure LiteralError.Located (text : String) (err : LiteralError) : Prop where
  le : ∀ offset, err.offset? = some offset → offset ≤ text.utf8ByteSize
  isValid : ∀ offset, err.offset? = some offset →
    String.Pos.Raw.IsValid text ⟨offset⟩
  shows : err.Shows text

/-- A cause that the text shows is right about it. -/
theorem LiteralError.Shows.located {err : LiteralError}
    (h : err.Shows text) : err.Located text where
  le _ hoffset := (h.isValid hoffset).le_rawEndPos
  isValid _ hoffset := h.isValid hoffset
  shows := h

/-- What is followed is granted every access, and is right about what it
is refused for. -/
theorem Follows.granted {α : Type}
    {indexed : Option (Except LiteralError α)} {read : Except LiteralError α}
    (h : Follows text indexed read fun a b => b = a) :
    indexed = some read ∧ ∀ err, read = .error err → err.Located text := by
  cases read with
  | error err =>
    obtain ⟨heq, hshows⟩ := h
    refine ⟨heq, fun e he => ?_⟩
    cases he
    exact hshows.located
  | ok a =>
    obtain ⟨b, heq, rfl⟩ := h
    exact ⟨heq, fun e he => by cases he⟩

/-- Reading a duration and reading quoted text by offsets only asks for
what the text has, and comes to what reading by characters comes to; and
if that is a cause, the text shows it where the cause points. -/
theorem literals_located (text : String) :
    (Duration.parseAt? text = some (Duration.parse text)
        ∧ ∀ err, Duration.parse text = .error err → err.Located text)
      ∧ unquoteAt? text = some (unquote text)
        ∧ ∀ err, unquote text = .error err → err.Located text :=
  ⟨(Duration.parseAt?_follows text).granted, (unquoteAt?_follows text).granted⟩

/-- Behind characters of more than one byte, the culprit is found where
the cause points. -/
theorem literals_located_wide :
    unquote "\"é\\q\"" = .error (.invalidEscape 'q' 4)
      ∧ (LiteralError.invalidEscape 'q' 4).Located "\"é\\q\""
      ∧ Duration.parse "P1é" = .error (.unexpected 'é' 2)
      ∧ (LiteralError.unexpected 'é' 2).Located "P1é" := by
  have hescape : unquote "\"é\\q\"" = .error (.invalidEscape 'q' 4) := by
    decide +kernel
  have hunit : Duration.parse "P1é" = .error (.unexpected 'é' 2) := by
    decide +kernel
  exact ⟨hescape, (literals_located _).2.2 _ hescape,
    hunit, (literals_located _).1.2 _ hunit⟩

end Purview

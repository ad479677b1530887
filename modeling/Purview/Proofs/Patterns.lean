/-
What tokens look like, and that the lexer takes the longest at each
place. The texts of the tokens of a kind are a language, made up from
characters the way a regular expression is (`TokenKind.pattern`), and
know nothing of how a text is gone through. The lexer knows nothing of
matches: it looks at one character, decides what to take from that, and
never compares.

That this comes to the same has two reasons. The first character of a
token tells its kind, but for words (`opener_of_mem`), so there is only
one pattern to be longest in; and the words, among which the kind is
open, are all names, so that one of them can only be longest by going on
to where names end. The other is about quotes. Whether a text closes is
seen only far behind its opening, yet it can close at one place at most:
what closes is taken whole, whatever follows it (`quotedTail_of_mem`),
so what the lexer does not find closed no match could be found in.
-/
import Mathlib.Computability.Language
import Mathlib.Data.List.TakeWhile
import Purview.Token.Lexer

namespace Purview

open Computability Lexeme

namespace TokenKind

-- ============================================================ patterns

/-- The texts of one character of a class. -/
def single (p : Char → Bool) : Language Char := {w | ∃ c, p c ∧ w = [c]}

/-- The parts of what stands between quotes: a character that stands for
itself, or a backslash with any character of the line. -/
def piece : Language Char :=
  single (fun c => c ≠ '"' ∧ c ≠ '\\' ∧ c ≠ '\n')
    + single (· = '\\') * single (· ≠ '\n')

/-- What may follow an opening quote up to the closing one. -/
def closing : Language Char := piece∗ * single (· = '"')

/-- The texts of the tokens of a kind. No text is meant to be invalid. -/
def pattern : TokenKind → Language Char
  | blank => single isBlank * (single isBlank)∗
  | comment =>
    single (· = '/') * (single (· = '/') * (single (· ≠ '\n'))∗)
  | project => {"project".toList}
  | profile => {"profile".toList}
  | tool => {"tool".toList}
  | depends => {"depends".toList}
  | source => {"source".toList}
  | definition => {"def".toList}
  | reference => {"ref".toList}
  | duration => {"duration".toList}
  | name => single isWordStart * (single isWordPart)∗
  | quoted => single (· = '"') * closing
  | openBrace => single (· = '{')
  | closeBrace => single (· = '}')
  | semicolon => single (· = ';')
  | equals => single (· = '=')
  | invalid => 0

variable {p : Char → Bool} {c : Char} {w : List Char} {k : TokenKind}

/-- A single character is a word of its own. -/
theorem cons_mem_single : c :: w ∈ single p ↔ p c ∧ w = [] := by
  constructor
  · rintro ⟨d, hd, heq⟩
    obtain ⟨rfl, rfl⟩ := List.cons.inj heq
    exact ⟨hd, rfl⟩
  · rintro ⟨hc, rfl⟩
    exact ⟨c, hc, rfl⟩

theorem cons_mem_single_mul {L : Language Char} :
    c :: w ∈ single p * L ↔ p c ∧ w ∈ L := by
  constructor
  · rintro ⟨_, ⟨d, hd, rfl⟩, v, hv, heq⟩
    obtain ⟨rfl, rfl⟩ := List.cons.inj heq
    exact ⟨hd, hv⟩
  · rintro ⟨hc, hw⟩
    exact ⟨[c], ⟨c, hc, rfl⟩, w, hw, rfl⟩

/-- A run of characters has nothing else in it. -/
theorem mem_kstar_single : w ∈ (single p)∗ ↔ ∀ c ∈ w, p c := by
  constructor
  · rintro ⟨L, rfl, hL⟩ c hc
    obtain ⟨v, hv, hcv⟩ := List.mem_flatten.1 hc
    obtain ⟨d, hd, rfl⟩ := hL v hv
    rwa [List.mem_singleton.1 hcv]
  · intro h
    refine ⟨w.map fun c => [c], ?_, fun v hv => ?_⟩
    · rw [← List.flatMap_def, List.flatMap_singleton']
    · obtain ⟨c, hc, rfl⟩ := List.mem_map.1 hv
      exact ⟨c, h c hc, rfl⟩

theorem nil_notMem_single (p : Char → Bool) : [] ∉ single p := by
  rintro ⟨d, hd, heq⟩
  cases heq

theorem nil_notMem_single_mul (p : Char → Bool) (L : Language Char) :
    [] ∉ single p * L := by
  rintro ⟨_, ⟨d, hd, rfl⟩, v, hv, heq⟩
  cases heq

/-- No token is empty. -/
theorem nil_notMem_pattern (k : TokenKind) : [] ∉ k.pattern := by
  cases k with
  | blank | comment | name | quoted => exact nil_notMem_single_mul _ _
  | openBrace | closeBrace | semicolon | equals =>
    exact nil_notMem_single _
  | invalid => exact Language.notMem_zero _
  | _ => exact fun h => nomatch h

/-- A run of characters can be made longer by another of them. -/
theorem concat_mem_run {q : Char → Bool}
    (hw : w ∈ single p * (single q)∗) (hc : q c) :
    w ++ [c] ∈ single p * (single q)∗ := by
  cases w with
  | nil => exact absurd hw (nil_notMem_single_mul _ _)
  | cons d v =>
    rw [cons_mem_single_mul, mem_kstar_single] at hw
    rw [List.cons_append, cons_mem_single_mul, mem_kstar_single]
    refine ⟨hw.1, fun e he => ?_⟩
    rcases List.mem_append.1 he with he | he
    · exact hw.2 e he
    · rwa [List.mem_singleton.1 he]

-- ============================================================= closing

/-- Behind the opening quote comes the closing one, or another piece. -/
theorem closing_eq : closing = single (· = '"') + piece * closing := by
  unfold closing
  conv_lhs =>
    rw [← Language.one_add_self_mul_kstar_eq_kstar, add_mul, one_mul,
      mul_assoc]

/-- So the next character is the closing quote, one that stands for
itself, or a backslash that takes the one behind it along. -/
theorem cons_mem_closing : c :: w ∈ closing ↔
    c = '"' ∧ w = []
      ∨ (c ≠ '"' ∧ c ≠ '\\' ∧ c ≠ '\n') ∧ w ∈ closing
      ∨ c = '\\' ∧ ∃ d v, w = d :: v ∧ d ≠ '\n' ∧ v ∈ closing := by
  conv_lhs =>
    rw [closing_eq, piece, add_mul, mul_assoc, Language.mem_add,
      Language.mem_add]
  simp only [cons_mem_single_mul, cons_mem_single]
  cases w with
  | nil => simp [nil_notMem_single_mul]
  | cons d v => simp [cons_mem_single_mul]

theorem nil_notMem_closing : [] ∉ closing := by
  rw [closing_eq, piece, add_mul, mul_assoc]
  rintro (h | h | h)
  · exact nil_notMem_single _ h
  · exact nil_notMem_single_mul _ _ h
  · exact nil_notMem_single_mul _ _ h

/-- What closes is a quote, or a part in front of what closes. -/
@[elab_as_elim]
theorem closing_induction {motive : (w : List Char) → w ∈ closing → Prop}
    (quote : ∀ h, motive ['"'] h)
    (plain : ∀ c w (hw : w ∈ closing) h, c ≠ '"' → c ≠ '\\' →
      c ≠ '\n' → motive w hw → motive (c :: w) h)
    (escaped : ∀ d w (hw : w ∈ closing) h, d ≠ '\n' →
      motive w hw → motive ('\\' :: d :: w) h) :
    (w : List Char) → (h : w ∈ closing) → motive w h
  | [], h => absurd h nil_notMem_closing
  | c :: w, h => by
    rcases cons_mem_closing.1 h with ⟨rfl, rfl⟩ | ⟨⟨hq, he, hl⟩, hw⟩
      | ⟨rfl, d, v, rfl, hd, hv⟩
    · exact quote h
    · exact plain c w hw h hq he hl
        (closing_induction quote plain escaped w hw)
    · exact escaped d v hv h hd
        (closing_induction quote plain escaped v hv)

-- =============================================================== words

/-- Names and the words that are kept for the language. -/
def isWord (k : TokenKind) : Bool :=
  k = name || keywords.any (·.2 = k)

/-- A name is a start of a word with parts of a word behind it. -/
theorem cons_mem_name : c :: w ∈ name.pattern
    ↔ isWordStart c ∧ ∀ d ∈ w, isWordPart d := by
  rw [pattern, cons_mem_single_mul, mem_kstar_single]

/-- What starts a word can also go on with it. -/
theorem isWordPart_of_isWordStart (h : isWordStart c) : isWordPart c := by
  simp only [isWordStart, isWordPart, Char.isAlphanum, Bool.or_eq_true]
    at h ⊢
  exact h.imp_left .inl

/-- Every word is one that a name could be. -/
theorem mem_name_of_isWord (hk : k.isWord) (hw : w ∈ k.pattern) :
    w ∈ name.pattern := by
  cases k with
  | name => exact hw
  | project | profile | tool | depends | source | definition | reference
  | duration =>
    obtain rfl := hw
    exact cons_mem_name.2 ⟨by decide, List.all_eq_true.1 (by decide)⟩
  | _ => exact absurd hk (by decide)

/-- A word that is kept for the language is the only one of its kind. -/
theorem pattern_of_mem_keywords {s : String} (h : (s, k) ∈ keywords) :
    k.pattern = {s.toList} ∧ k ≠ name := by
  simp only [keywords, List.mem_cons, Prod.mk.injEq, List.not_mem_nil,
    or_false] at h
  rcases h with ⟨rfl, rfl⟩ | ⟨rfl, rfl⟩ | ⟨rfl, rfl⟩ | ⟨rfl, rfl⟩
    | ⟨rfl, rfl⟩ | ⟨rfl, rfl⟩ | ⟨rfl, rfl⟩ | ⟨rfl, rfl⟩
  all_goals exact ⟨rfl, by decide⟩

/-- A word that is kept for the language is found among them. -/
theorem lookup_of_mem (hk : k.isWord) (hname : k ≠ name)
    (h : w ∈ k.pattern) : keywords.lookup (String.ofList w) = some k := by
  cases k with
  | name => exact absurd rfl hname
  | project | profile | tool | depends | source | definition | reference
  | duration =>
    obtain rfl := h
    decide
  | _ => exact absurd hk (by decide)

/-- A word is a name unless it is kept for the language. -/
theorem ofWord_cases (s : String) :
    ofWord s = name ∨ (s, ofWord s) ∈ keywords := by
  unfold ofWord
  cases hlookup : keywords.lookup s with
  | none => exact .inl rfl
  | some k =>
    obtain ⟨before, after, heq, -⟩ := List.lookup_eq_some_iff.1 hlookup
    refine .inr ?_
    rw [heq]
    exact List.mem_append_right _ List.mem_cons_self

/-- A word has the kind that it is given. -/
theorem mem_ofWord (h : w ∈ name.pattern) :
    w ∈ (ofWord (String.ofList w)).pattern := by
  rcases ofWord_cases (String.ofList w) with hname | hkept
  · rwa [hname]
  · rw [(pattern_of_mem_keywords hkept).1, String.toList_ofList]
    rfl

/-- It has no other, but that any word could be a name. -/
theorem eq_ofWord (hk : k.isWord) (h : w ∈ k.pattern) :
    k = ofWord (String.ofList w) ∨ k = name := by
  by_cases hname : k = name
  · exact .inr hname
  · rw [ofWord, lookup_of_mem hk hname h]
    exact .inl rfl

-- ==================================================== first characters

/-- The kind of tokens that start with a character. A word is a name as
long as no more of it is known. -/
def opener (c : Char) : TokenKind :=
  if isBlank c then blank
  else if isWordStart c then name
  else if c = '"' then quoted
  else if c = '/' then comment
  else if c = '{' then openBrace
  else if c = '}' then closeBrace
  else if c = ';' then semicolon
  else if c = '=' then equals
  else invalid

/-- A kind as far as the first character of a token tells it. -/
def family (k : TokenKind) : TokenKind :=
  if k.isWord then name else k

/-- Kinds that are not words are told by their first character. -/
theorem eq_of_family {k' : TokenKind} (hk : ¬ k.isWord)
    (h : k'.family = k.family) : k' = k := by
  unfold family at h
  rw [if_neg hk] at h
  split at h
  · subst h
    exact absurd (by decide) hk
  · exact h

theorem isWord_of_family (h : k.family = name) : k.isWord := by
  unfold family at h
  split at h
  · assumption
  · subst h
    decide

theorem not_isBlank_of_isWordStart (h : isWordStart c) : ¬ isBlank c := by
  intro hblank
  simp only [isBlank, Bool.or_eq_true, decide_eq_true_eq] at hblank
  rcases hblank with ((rfl | rfl) | rfl) | rfl <;> exact absurd h (by decide)

/-- The start of a word opens a word. -/
theorem opener_of_isWordStart (h : isWordStart c) : opener c = name := by
  rw [opener, if_neg (not_isBlank_of_isWordStart h), if_pos h]

/-- The first character of a token tells its kind, but for a word. -/
theorem opener_of_mem (h : c :: w ∈ k.pattern) : opener c = k.family := by
  by_cases hword : k.isWord
  · have hname := cons_mem_name.1 (mem_name_of_isWord hword h)
    rw [family, if_pos hword]
    exact opener_of_isWordStart hname.1
  · cases k with
    | blank => exact if_pos (cons_mem_single_mul.1 h).1
    | comment | quoted =>
      obtain rfl := of_decide_eq_true (cons_mem_single_mul.1 h).1
      decide
    | openBrace | closeBrace | semicolon | equals =>
      obtain rfl := of_decide_eq_true (cons_mem_single.1 h).1
      decide
    | invalid => exact h.elim
    | _ => exact absurd (by decide) hword

end TokenKind

namespace Lexeme

open TokenKind

variable {c : Char} {cs w v : List Char} {k : TokenKind}

-- ============================================================= matches

/-- No front of a text is a token. -/
def Unmatched (text : List Char) : Prop :=
  ∀ (w : List Char) (k : TokenKind), w <+: text → w ∉ k.pattern

/-- What is taken at the front of a text by taking the longest match of
the patterns, and of the words that match alike the one that is kept.
Where nothing matches it is one character, or a quote and what follows
it on the line. -/
inductive Greedy : List Char → TokenKind → List Char → Prop
  | longest {text chars : List Char} {kind : TokenKind}
      (front : chars <+: text) (matched : chars ∈ kind.pattern)
      (longest : ∀ (w : List Char) (k : TokenKind), w <+: text →
        w ∈ k.pattern → w.length ≤ chars.length)
      (preferred : ∀ k : TokenKind, chars ∈ k.pattern →
        k = kind ∨ k = .name) :
      Greedy text kind chars
  | stray {c : Char} {cs : List Char} (unquoted : c ≠ '"')
      (unmatched : Unmatched (c :: cs)) : Greedy (c :: cs) .invalid [c]
  | unclosed {cs : List Char} (unmatched : Unmatched ('"' :: cs)) :
      Greedy ('"' :: cs) .invalid ('"' :: cs.takeWhile (· ≠ '\n'))

/-- What matches at the front of a text starts as the text does. -/
theorem cons_of_mem (hw : w <+: c :: cs) (h : w ∈ k.pattern) :
    ∃ v, w = c :: v ∧ v <+: cs := by
  cases w with
  | nil => exact absurd h (nil_notMem_pattern k)
  | cons d v =>
    obtain ⟨rfl, hv⟩ := List.cons_prefix_cons.1 hw
    exact ⟨v, rfl, hv⟩

/-- Nothing but the run itself is longer than its parts. -/
theorem length_le_takeWhile {p : Char → Bool} (hw : w <+: cs)
    (h : ∀ d ∈ w, p d) : w.length ≤ (cs.takeWhile p).length := by
  obtain ⟨rest, rfl⟩ := hw
  rw [List.takeWhile_append_of_pos h, List.length_append]
  exact Nat.le_add_right _ _

/-- A word is taken to its end, so no word is longer. -/
theorem greedy_word (hc : isWordStart c) :
    Greedy (c :: cs)
      (.ofWord (String.ofList (c :: cs.takeWhile isWordPart)))
      (c :: cs.takeWhile isWordPart) := by
  have hword {v k} (hk : c :: v ∈ pattern k) : k.isWord :=
    isWord_of_family
      ((opener_of_mem hk).symm.trans (opener_of_isWordStart hc))
  have hmem : c :: cs.takeWhile isWordPart ∈ name.pattern :=
    cons_mem_name.2 ⟨hc, fun _ => List.mem_takeWhile_imp⟩
  refine .longest (List.cons_prefix_cons.2 ⟨rfl, List.takeWhile_prefix _⟩)
    (mem_ofWord hmem) ?_ fun k hk => eq_ofWord (hword hk) hk
  intro w k hw hk
  obtain ⟨v, rfl, hv⟩ := cons_of_mem hw hk
  have hname := cons_mem_name.1 (mem_name_of_isWord (hword hk) hk)
  exact Nat.succ_le_succ (length_le_takeWhile hv hname.2)

/-- Where no word starts, there is but one kind to be longest in. -/
theorem greedy_of_longest {kind : TokenKind} (hword : ¬ kind.isWord)
    (hfront : w <+: cs) (hmem : c :: w ∈ kind.pattern)
    (hlong : ∀ v, v <+: cs → c :: v ∈ kind.pattern →
      v.length ≤ w.length) :
    Greedy (c :: cs) kind (c :: w) := by
  have honly {v k} (hk : c :: v ∈ pattern k) : k = kind :=
    eq_of_family hword ((opener_of_mem hk).symm.trans (opener_of_mem hmem))
  refine .longest (List.cons_prefix_cons.2 ⟨rfl, hfront⟩) hmem ?_
    fun k hk => .inl (honly hk)
  intro w' k hw' hk
  obtain ⟨v, rfl, hv⟩ := cons_of_mem hw' hk
  obtain rfl := honly hk
  exact Nat.succ_le_succ (hlong v hv hk)

/-- The longest blank at a place is the run of blanks. -/
theorem greedy_blank (hc : isBlank c) :
    Greedy (c :: cs) .blank (c :: cs.takeWhile isBlank) := by
  refine greedy_of_longest (by decide) (List.takeWhile_prefix _) ?_
    fun v hv hmem => ?_
  · rw [pattern, cons_mem_single_mul, mem_kstar_single]
    exact ⟨hc, fun _ => List.mem_takeWhile_imp⟩
  · rw [pattern, cons_mem_single_mul, mem_kstar_single] at hmem
    exact length_le_takeWhile hv hmem.2

/-- The longest comment goes on to the end of the line. -/
theorem greedy_comment (cs : List Char) :
    Greedy ('/' :: '/' :: cs) .comment
      ('/' :: '/' :: cs.takeWhile (· ≠ '\n')) := by
  refine greedy_of_longest (by decide)
    (List.cons_prefix_cons.2 ⟨rfl, List.takeWhile_prefix _⟩) ?_
    fun v hv hmem => ?_
  · rw [pattern, cons_mem_single_mul, cons_mem_single_mul,
      mem_kstar_single]
    exact ⟨rfl, rfl, fun _ => List.mem_takeWhile_imp⟩
  · rw [pattern, cons_mem_single_mul] at hmem
    cases v with
    | nil => exact Nat.zero_le _
    | cons d v =>
      rw [cons_mem_single_mul, mem_kstar_single] at hmem
      have hline := (List.cons_prefix_cons.1 hv).2
      exact Nat.succ_le_succ (length_le_takeWhile hline hmem.2.2)

/-- A mark is one character long. -/
theorem greedy_mark (kind : TokenKind) (hword : ¬ kind.isWord)
    (hkind : kind.pattern = single (· = c)) :
    Greedy (c :: cs) kind [c] := by
  refine greedy_of_longest hword List.nil_prefix ?_ fun v _ hmem => ?_
  · rw [hkind, cons_mem_single]
    exact ⟨decide_eq_true rfl, rfl⟩
  · rw [hkind, cons_mem_single] at hmem
    rw [hmem.2]

-- ======================================================== quoted texts

/-- What closes is taken up to where it closes, whatever follows. -/
theorem quotedTail_of_mem (h : w ∈ closing) (rest : List Char) :
    quotedTail (w ++ rest) = (true, w, rest) := by
  induction w, h using closing_induction with
  | quote =>
    rw [List.singleton_append, quotedTail.eq_def]
    rfl
  | plain c w _ _ hquote hescape hline ih =>
    rw [List.cons_append, quotedTail.eq_def]
    simp only [hline, hquote, hescape, if_false, ih]
  | escaped d w _ _ hline ih => simp [quotedTail, hline, ih]

/-- What is taken up to the closing quote is of the pattern. -/
theorem quotedTail_mem (h : (quotedTail cs).1 = true) :
    (quotedTail cs).2.1 ∈ closing := by
  fun_induction quotedTail cs with
  | case1 | case2 | case4 | case5 => cases h
  | case3 => exact cons_mem_closing.2 (.inl ⟨rfl, rfl⟩)
  | case6 d ds hline tail _ _ ih =>
    exact cons_mem_closing.2 (.inr (.inr ⟨rfl, d, _, rfl, hline, ih h⟩))
  | case7 d ds hline hquote hescape tail ih =>
    exact cons_mem_closing.2
      (.inr (.inl ⟨⟨hquote, hescape, hline⟩, ih h⟩))

/-- What does not close is taken to the end of the line. -/
theorem quotedTail_open (h : (quotedTail cs).1 = false) :
    (quotedTail cs).2.1 = cs.takeWhile (· ≠ '\n') := by
  fun_induction quotedTail cs with
  | case1 => rfl
  | case2 | case4 | case5 => simp
  | case3 => cases h
  | case6 d ds hline tail _ _ ih => simpa [hline, tail] using ih h
  | case7 d ds hline hquote hescape tail ih =>
    simpa [hline, tail] using ih h

/-- The longest quoted text ends at the first quote that no backslash
stands before. -/
theorem greedy_quoted (h : (quotedTail cs).1 = true) :
    Greedy ('"' :: cs) .quoted ('"' :: (quotedTail cs).2.1) := by
  refine greedy_of_longest (by decide) ⟨_, quotedTail_append cs⟩
    (cons_mem_single_mul.2 ⟨rfl, quotedTail_mem h⟩) ?_
  rintro v ⟨rest, rfl⟩ hmem
  rw [quotedTail_of_mem (cons_mem_single_mul.1 hmem).2]

/-- A quote that is not found closed has no match: the match would have
been found, as the one place at which the text closes. -/
theorem greedy_unclosed (h : (quotedTail cs).1 = false) :
    Greedy ('"' :: cs) .invalid ('"' :: (quotedTail cs).2.1) := by
  rw [quotedTail_open h]
  refine .unclosed fun w k hw hk => ?_
  obtain ⟨v, rfl, ⟨rest, rfl⟩⟩ := cons_of_mem hw hk
  obtain rfl : k = .quoted :=
    eq_of_family (by decide) (opener_of_mem hk).symm
  rw [quotedTail_of_mem (cons_mem_single_mul.1 hk).2] at h
  cases h

-- ===================================================== the next lexeme

theorem next_quote (cs : List Char) :
    next '"' cs
      = ⟨if (quotedTail cs).1 then .quoted else .invalid,
          '"' :: (quotedTail cs).2.1, (quotedTail cs).2.2⟩ :=
  rfl

/-- A character that opens nothing begins no token. -/
theorem unmatched_of_opener (h : opener c = .invalid) :
    Unmatched (c :: cs) := by
  intro w k hw hk
  obtain ⟨v, rfl, -⟩ := cons_of_mem hw hk
  obtain rfl : k = .invalid :=
    eq_of_family (by decide) ((opener_of_mem hk).symm.trans h)
  exact hk.elim

/-- Neither does a single slash. -/
theorem unmatched_slash (h : cs.head? ≠ some '/') :
    Unmatched ('/' :: cs) := by
  intro w k hw hk
  obtain ⟨v, rfl, hv⟩ := cons_of_mem hw hk
  obtain rfl : k = .comment :=
    eq_of_family (by decide) (opener_of_mem hk).symm
  have hsecond := (cons_mem_single_mul.1 hk).2
  cases v with
  | nil => exact nil_notMem_single_mul _ _ hsecond
  | cons d v =>
    obtain rfl := of_decide_eq_true (cons_mem_single_mul.1 hsecond).1
    obtain ⟨rest, rfl⟩ := hv
    exact h rfl

/-- The next lexeme is the longest match. -/
theorem greedy_next (c : Char) (cs : List Char) :
    Greedy (c :: cs) (next c cs).kind (next c cs).chars := by
  by_cases hquote : c = '"'
  · subst hquote
    rw [next_quote]
    cases h : (quotedTail cs).1 with
    | true => exact greedy_quoted h
    | false => exact greedy_unclosed h
  unfold next
  split
  · next hblank => exact greedy_blank hblank
  next hblank =>
  split
  · next hword => exact greedy_word hword
  next hword =>
  split
  · next hcomment =>
    obtain ⟨rfl, hhead⟩ := hcomment
    obtain ⟨cs, rfl⟩ := List.head?_eq_some_iff.1 hhead
    exact greedy_comment cs
  next hcomment =>
  split
  · next hmark => subst hmark; exact greedy_mark .openBrace (by decide) rfl
  split
  · next hmark => subst hmark; exact greedy_mark .closeBrace (by decide) rfl
  split
  · next hmark => subst hmark; exact greedy_mark .semicolon (by decide) rfl
  split
  · next hmark => subst hmark; exact greedy_mark .equals (by decide) rfl
  refine .stray hquote ?_
  by_cases hslash : c = '/'
  · subst hslash
    exact unmatched_slash fun hhead => hcomment ⟨rfl, hhead⟩
  · exact unmatched_of_opener (by simp [opener, *])

end Lexeme

end Purview

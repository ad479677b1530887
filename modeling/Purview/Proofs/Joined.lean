/-
A text whose last token ends a statement is read as if nothing followed
it. The lexer looks further than it takes, and so does the reader; that
neither looks past such a token has the same form for both. Whatever
leaves something of its text behind has stopped at what it leaves, so
more text behind it changes nothing (`Lexeme.next_append_of_rest`, and
`_append` for each reader); and before the end of a statement is taken,
something is always left: the end itself. So a reader inside a statement
never runs out of tokens, in whichever of the errors it goes on from,
and only the one that takes the end may leave nothing.

What follows is read as if it stood alone, but for its place in the
text. No reader looks at a place except to put it down, so moving all
tokens on moves all that is read on with them (`_shift`).
-/
import Purview.Proofs.Provenance

namespace Purview

-- ============================================================== tokens

/-- The kinds of tokens at which a statement ends. -/
def TokenKind.ends : TokenKind → Bool
  | .semicolon | .closeBrace => true
  | _ => false

/-- These are the two kinds at which one does. -/
theorem TokenKind.ends_iff {k : TokenKind} :
    k.ends ↔ k = .semicolon ∨ k = .closeBrace := by
  cases k <;> simp [ends]

/-- No word ends a statement. -/
theorem TokenKind.not_ends_ofWord (s : String) : ¬ (ofWord s).ends := by
  have hall : ∀ p ∈ keywords, ¬ p.2.ends := by decide
  rcases ofWord_cases s with hname | hkept
  · rw [hname]
    decide
  · exact hall _ hkept

namespace Lexeme

variable {c : Char} {cs : List Char}

/-- A run that stops inside a text stops there whatever follows. -/
theorem takeWhile_append_of_stop {p : Char → Bool}
    (h : cs.dropWhile p ≠ []) (more : List Char) :
    (cs ++ more).takeWhile p = cs.takeWhile p
      ∧ (cs ++ more).dropWhile p = cs.dropWhile p ++ more := by
  have hlength : (cs.takeWhile p).length ≠ cs.length := by
    intro heq
    have happ := congrArg List.length
      (List.takeWhile_append_dropWhile (p := p) (l := cs))
    rw [List.length_append, heq] at happ
    exact h (List.eq_nil_of_length_eq_zero (by omega))
  rw [List.takeWhile_append, if_neg hlength, List.dropWhile_append,
    if_neg (by simpa using h)]
  exact ⟨rfl, rfl⟩

/-- So does a quoted text. -/
theorem quotedTail_append_of_rest (h : (quotedTail cs).2.2 ≠ [])
    (more : List Char) :
    quotedTail (cs ++ more)
      = ((quotedTail cs).1, (quotedTail cs).2.1,
          (quotedTail cs).2.2 ++ more) := by
  fun_induction quotedTail cs with
  | case1 | case4 => exact absurd rfl h
  | case2 | case3 | case5 => rw [List.cons_append, quotedTail.eq_def]; rfl
  | case6 d ds hline tail _ _ ih => simp [quotedTail, hline, ih h, tail]
  | case7 d ds hline hquote hescape tail ih =>
    rw [List.cons_append, quotedTail.eq_def]
    simp only [hline, hquote, hescape, if_false, ih h]
    rfl

/-- A slash starts a comment or nothing. -/
theorem next_slash (cs : List Char) :
    next '/' cs = if cs.head? = some '/' then
        ⟨.comment, '/' :: cs.takeWhile (· ≠ '\n'),
          cs.dropWhile (· ≠ '\n')⟩
      else ⟨.invalid, ['/'], cs⟩ := by
  have hblank : ¬ isBlank '/' := by decide
  have hword : ¬ isWordStart '/' := by decide
  simp only [next, if_neg hblank, if_neg hword, true_and]
  rfl

/-- A lexeme that leaves something of a text is the same whatever
follows the text; so is a mark that ends a statement. -/
theorem next_append_of_rest
    (h : (next c cs).rest ≠ [] ∨ (next c cs).kind.ends) (more : List Char) :
    next c (cs ++ more)
      = { next c cs with rest := (next c cs).rest ++ more } := by
  by_cases hblank : isBlank c
  · simp only [next, hblank, if_true] at h ⊢
    obtain ⟨htake, hdrop⟩ :=
      takeWhile_append_of_stop (h.resolve_right (by decide)) more
    rw [htake, hdrop]
  by_cases hword : isWordStart c
  · simp only [next, hblank, hword, if_true, Bool.false_eq_true, if_false]
      at h ⊢
    obtain ⟨htake, hdrop⟩ := takeWhile_append_of_stop
      (h.resolve_right (TokenKind.not_ends_ofWord _)) more
    rw [htake, hdrop]
  by_cases hquote : c = '"'
  · subst hquote
    rw [next_quote] at h ⊢
    rw [next_quote, quotedTail_append_of_rest
      (h.resolve_right (by dsimp only; split <;> decide))]
  by_cases hslash : c = '/'
  · subst hslash
    cases cs with
    | nil => exact absurd h (by decide)
    | cons d ds =>
      rw [next_slash] at h ⊢
      rw [next_slash, List.cons_append, List.head?_cons]
      rw [List.head?_cons] at h ⊢
      split
      · next hcomment =>
        rw [if_pos hcomment] at h
        obtain ⟨htake, hdrop⟩ :=
          takeWhile_append_of_stop (h.resolve_right Bool.false_ne_true) more
        rw [← List.cons_append, htake, hdrop]
      · rfl
  · simp only [next, hblank, hword, hquote, hslash, false_and, if_false,
      Bool.false_eq_true]
    repeat' split
    all_goals rfl

end Lexeme

namespace Token

/-- A token moved on by some bytes. -/
def shift (n : Nat) (t : Token) : Token := { t with start := t.start + n }

/-- The last token, if there is one, ends a statement. -/
def Ended (ts : List Token) : Prop := ∀ t ∈ ts.getLast?, t.kind.ends

/-- What is left of tokens that end a statement ends it too. -/
theorem Ended.of_suffix {ts us : List Token} (h : Ended ts)
    (hus : us <:+ ts) : Ended us := by
  obtain ⟨before, rfl⟩ := hus
  intro t ht
  refine h t ?_
  rw [List.getLast?_append, ht]
  rfl

/-- A text that starts later has the same tokens, moved on. -/
theorem scanFrom_shift (n start : Nat) (cs : List Char) :
    scanFrom (start + n) cs = (scanFrom start cs).map (shift n) := by
  fun_induction scanFrom start cs with
  | case1 => rw [scanFrom]; rfl
  | case2 start c cs lexeme token ih =>
    have hstop : token.span.stop + n
        = start + n + String.utf8Len lexeme.chars := by
      rw [Nat.add_right_comm, ← String.utf8ByteSize_ofList]
      rfl
    rw [scanFrom_cons, List.map_cons, ← ih, hstop]
    rfl

/-- Behind the end of a statement the lexer starts afresh. -/
theorem scanFrom_append {start : Nat} {cs : List Char}
    (h : Ended (scanFrom start cs)) (more : List Char) :
    scanFrom start (cs ++ more)
      = scanFrom start cs
        ++ scanFrom (start + String.utf8Len cs) more := by
  fun_induction scanFrom start cs with
  | case1 => rfl
  | case2 start c cs lexeme token ih =>
    have hsettled : lexeme.rest ≠ [] ∨ lexeme.kind.ends := by
      by_cases hrest : lexeme.rest = []
      · rw [hrest, scanFrom] at h
        exact .inr (h _ rfl)
      · exact .inl hrest
    have happ := congrArg String.utf8Len (Lexeme.next_append c cs)
    rw [String.utf8Len_append] at happ
    have hstop : token.span.stop = start + String.utf8Len lexeme.chars :=
      congrArg (start + ·) (String.utf8ByteSize_ofList _)
    rw [List.cons_append, scanFrom_cons,
      Lexeme.next_append_of_rest hsettled, ← hstop,
      ih (h.of_suffix (List.suffix_cons _ _)), ← happ, ← Nat.add_assoc,
      ← hstop]
    rfl

theorem Ended.tail {t : Token} {ts : List Token} (h : Ended (t :: ts)) :
    Ended ts :=
  h.of_suffix (List.suffix_cons t ts)

/-- Where a token does not end a statement, more is to come. -/
theorem Ended.tail_ne_nil {t : Token} {ts : List Token}
    (h : Ended (t :: ts)) (ht : ¬ t.kind.ends) : ts ≠ [] := by
  rintro rfl
  exact ht (h t rfl)

end Token

-- ========================================================= the readers

/-- What a reader took, in front of more tokens. -/
def Read.push {α : Type} (r : Read α) (us : List Token) : Read α :=
  { r with rest := r.rest ++ us }

namespace Reader

open Token

variable {t : Token} {ts : List Token} (stop stop' : Nat)

theorem expect_of_ne {kind : TokenKind} (h : t.kind ≠ kind)
    (ts : List Token) :
    expect stop kind (t :: ts)
      = ⟨none, [(Issue.expected kind (some t.kind)).diagnose t.span],
          t :: ts⟩ := by
  rw [expect, if_neg h]

/-- As long as a token is left, what follows them all is not looked
at. -/
theorem expect_append (hne : ts ≠ []) (kind : TokenKind) (us : List Token) :
    expect stop kind (ts ++ us) = (expect stop' kind ts).push us := by
  obtain ⟨t, ts, rfl⟩ := List.exists_cons_of_ne_nil hne
  rw [List.cons_append]
  by_cases hkind : t.kind = kind
  · rw [expect_of_kind stop hkind, expect_of_kind stop' hkind]
    rfl
  · rw [expect_of_ne stop hkind, expect_of_ne stop' hkind]
    rfl

/-- What is expected inside a statement leaves its end. -/
theorem rest_expect_ne_nil (h : Ended ts) (hne : ts ≠ [])
    (kind : TokenKind) (hkind : ¬ kind.ends) :
    (expect stop kind ts).rest ≠ [] := by
  obtain ⟨t, ts, rfl⟩ := List.exists_cons_of_ne_nil hne
  by_cases ht : t.kind = kind
  · rw [expect_of_kind stop ht]
    exact h.tail_ne_nil (ht ▸ hkind)
  · rw [expect_of_ne stop ht]
    exact List.cons_ne_nil _ _

/-- Skipping stops at the end of a statement at the latest. -/
theorem recover_append (h : Ended ts) (hne : ts ≠ []) (us : List Token) :
    recover (ts ++ us) = recover ts ++ us := by
  fun_induction recover ts with
  | case1 => exact absurd rfl hne
  | case2 t ts hkind => rw [List.cons_append, recover, if_pos hkind]
  | case3 t ts hkind hclose =>
    rw [List.cons_append, recover, if_neg hkind, if_pos hclose]
  | case4 t ts hkind hclose ih =>
    have hopen : ¬ t.kind.ends := by simp [TokenKind.ends_iff, hkind, hclose]
    rw [List.cons_append, recover, if_neg hkind, if_neg hclose,
      ih h.tail (h.tail_ne_nil hopen)]

/-- Skipping up to the end of a statement leaves it there. -/
theorem skipToEnd_append (h : Ended ts) (hne : ts ≠ []) (us : List Token) :
    skipToEnd (ts ++ us) = skipToEnd ts ++ us ∧ skipToEnd ts ≠ [] := by
  fun_induction skipToEnd ts with
  | case1 => exact absurd rfl hne
  | case2 t ts hkind =>
    rw [List.cons_append, skipToEnd, if_pos hkind]
    exact ⟨rfl, List.cons_ne_nil _ _⟩
  | case3 t ts hkind ih =>
    have hopen : ¬ t.kind.ends := by rwa [TokenKind.ends_iff]
    rw [List.cons_append, skipToEnd, if_neg hkind]
    exact ih h.tail (h.tail_ne_nil hopen)

/-- A statement is ended before what follows it comes up. -/
theorem finish_append (h : Ended ts) (hne : ts ≠ []) (us : List Token) :
    finish stop (ts ++ us) = (finish stop' ts).push us := by
  obtain ⟨t, ts, rfl⟩ := List.exists_cons_of_ne_nil hne
  unfold finish
  rw [List.cons_append]
  by_cases hkind : t.kind = .semicolon
  · rw [expect_of_kind stop hkind, expect_of_kind stop' hkind]
    rfl
  · rw [expect_of_ne stop hkind, expect_of_ne stop' hkind,
      ← List.cons_append]
    simp only [Option.isSome_none, Bool.false_eq_true, if_false,
      recover_append h hne us]
    rfl

/-- A value is read, or skipped, with the end of its statement still to
come. -/
theorem readValue_append (h : Ended ts) (hne : ts ≠ []) (us : List Token) :
    readValue stop (ts ++ us) = (readValue stop' ts).push us
      ∧ (readValue stop' ts).rest ≠ [] := by
  obtain ⟨t, ts, rfl⟩ := List.exists_cons_of_ne_nil hne
  unfold readValue
  rw [List.cons_append]
  by_cases ht : t.kind = .duration
  · have hts : ts ≠ [] := h.tail_ne_nil (by simp [ht, TokenKind.ends])
    obtain ⟨u, ts, rfl⟩ := List.exists_cons_of_ne_nil hts
    simp only [expect_of_kind _ ht, List.cons_append]
    by_cases hu : u.kind = .quoted
    · have hts : ts ≠ [] :=
        h.tail.tail_ne_nil (by simp [hu, TokenKind.ends])
      simp only [expect_of_kind _ hu]
      split <;> exact ⟨rfl, hts⟩
    · obtain ⟨hskip, hrest⟩ := skipToEnd_append h.tail hts us
      rw [List.cons_append] at hskip
      simp only [expect_of_ne _ hu, hskip]
      exact ⟨rfl, hrest⟩
  · obtain ⟨hskip, hrest⟩ := skipToEnd_append h hne us
    rw [List.cons_append] at hskip
    simp only [expect_of_ne _ ht, hskip]
    exact ⟨rfl, hrest⟩

/-- So is a definition. -/
theorem readDefinition_append (h : Ended ts) (hne : ts ≠ [])
    (us : List Token) :
    readDefinition stop (ts ++ us) = (readDefinition stop' ts).push us
      ∧ (readDefinition stop' ts).rest ≠ [] := by
  obtain ⟨t, ts, rfl⟩ := List.exists_cons_of_ne_nil hne
  unfold readDefinition
  rw [List.cons_append]
  by_cases ht : t.kind = .name
  · have hts : ts ≠ [] := h.tail_ne_nil (by simp [ht, TokenKind.ends])
    obtain ⟨u, ts, rfl⟩ := List.exists_cons_of_ne_nil hts
    simp only [expect_of_kind _ ht, List.cons_append]
    split
    · next hu =>
      have hts : ts ≠ [] :=
        h.tail.tail_ne_nil (by simp [hu, TokenKind.ends])
      obtain ⟨hvalue, hrest⟩ :=
        readValue_append stop stop' h.tail.tail hts us
      rw [hvalue]
      exact ⟨rfl, hrest⟩
    · exact ⟨rfl, List.cons_ne_nil _ _⟩
  · simp only [expect_of_ne _ ht]
    exact ⟨rfl, List.cons_ne_nil _ _⟩

/-- An item is read up to the end of its statement and no further. -/
theorem readItem_append (h : Ended (t :: ts)) (us : List Token) :
    readItem stop t (ts ++ us) = (readItem stop' t ts).push us := by
  have hmore (hkind : ¬ t.kind.ends) : ts ≠ [] := h.tail_ne_nil hkind
  unfold readItem
  split
  · next hkind =>
    have hts := hmore (by simp [hkind, TokenKind.ends])
    obtain ⟨hdefinition, hrest⟩ :=
      readDefinition_append stop stop' h.tail hts us
    have hended := h.tail.of_suffix (trail_readDefinition stop' ts).suffix
    simp only [hdefinition, Read.push,
      finish_append stop stop' hended hrest]
  · next hkind =>
    have hts := hmore (by simp [hkind, TokenKind.ends])
    have hrest := rest_expect_ne_nil stop' h.tail hts .name (by decide)
    have hended := h.tail.of_suffix (trail_expect stop' ts .name).suffix
    simp only [expect_append stop stop' hts, Read.push,
      finish_append stop stop' hended hrest]
  · have hrecover := recover_append h (List.cons_ne_nil _ _) us
    rw [List.cons_append] at hrecover
    simp only [hrecover, Read.push]
    split <;> rfl

/-- Items end with the statement that the last of them ends with, and
what follows makes up items of its own. -/
theorem readItems_append (h : Ended ts) (us : List Token) :
    readItems stop (ts ++ us)
      = ((readItems stop' ts).1 ++ (readItems stop us).1,
          (readItems stop' ts).2 ++ (readItems stop us).2) := by
  fun_induction readItems stop' ts with
  | case1 => rfl
  | case2 t ts item more ih =>
    have hended := h.of_suffix (trail_readItem stop' ts t).suffix
    rw [List.cons_append, readItems, readItem_append stop stop' h]
    show (item.value.toList ++ (readItems stop (item.rest ++ us)).1,
      item.issues ++ (readItems stop (item.rest ++ us)).2) = _
    rw [ih hended, List.append_assoc, List.append_assoc]

end Reader

-- ============================================================= shifted

/-- A span moved on by some bytes. -/
def Span.shift (n : Nat) (s : Span) : Span := ⟨s.start + n, s.stop + n⟩

/-- A diagnostic moved on by some bytes. -/
def Diagnostic.shift (n : Nat) (d : Diagnostic) : Diagnostic :=
  { d with span := d.span.shift n }

/-- A definition moved on by some bytes. -/
def Definition.shift (n : Nat) (d : Definition) : Definition :=
  { d with span := d.span.shift n }

/-- A reference moved on by some bytes. -/
def Reference.shift (n : Nat) (r : Reference) : Reference :=
  { r with span := r.span.shift n }

/-- An item moved on by some bytes. -/
def Reader.Item.shift (n : Nat) : Reader.Item → Reader.Item
  | .definition d => .definition (d.shift n)
  | .reference r => .reference (r.shift n)

/-- What a reader took, moved on by some bytes. -/
def Read.shift {α : Type} (n : Nat) (move : α → α) (r : Read α) : Read α :=
  ⟨move r.value, r.issues.map (·.shift n), r.rest.map (Token.shift n)⟩

namespace Reader

variable (n stop : Nat) (ts : List Token)

@[simp] theorem kind_shift (t : Token) : (t.shift n).kind = t.kind := rfl

@[simp] theorem text_shift (t : Token) : (t.shift n).text = t.text := rfl

@[simp] theorem span_shift (t : Token) :
    (t.shift n).span = t.span.shift n := by
  simp only [Token.span, Token.shift, Span.shift, Nat.add_right_comm]

@[simp] theorem diagnose_shift (issue : Issue) (s : Span) :
    issue.diagnose (s.shift n) = (issue.diagnose s).shift n :=
  rfl

theorem recover_shift :
    recover (ts.map (Token.shift n)) = (recover ts).map (Token.shift n) := by
  fun_induction recover ts with
  | case1 => rfl
  | case2 t ts hkind => exact if_pos hkind
  | case3 t ts hkind hclose => exact (if_neg hkind).trans (if_pos hclose)
  | case4 t ts hkind hclose ih =>
    exact ((if_neg hkind).trans (if_neg hclose)).trans ih

theorem skipToEnd_shift :
    skipToEnd (ts.map (Token.shift n))
      = (skipToEnd ts).map (Token.shift n) := by
  fun_induction skipToEnd ts with
  | case1 => rfl
  | case2 t ts hkind => exact if_pos hkind
  | case3 t ts hkind ih => exact (if_neg hkind).trans ih

/-- Taking a token does not mind where it stands. -/
theorem expect_shift (kind : TokenKind) :
    expect (stop + n) kind (ts.map (Token.shift n))
      = (expect stop kind ts).shift n (·.map (Token.shift n)) := by
  cases ts with
  | nil => rfl
  | cons t ts =>
    simp only [List.map_cons, expect, kind_shift, span_shift, diagnose_shift]
    split <;> rfl

theorem finish_shift :
    finish (stop + n) (ts.map (Token.shift n))
      = (finish stop ts).shift n id := by
  unfold finish
  rw [expect_shift]
  cases hvalue : (expect stop .semicolon ts).value with
  | none => simp [Read.shift, hvalue, recover_shift]
  | some t => simp [Read.shift, hvalue]

/-- Reading a value does not mind where it stands. -/
theorem readValue_shift :
    readValue (stop + n) (ts.map (Token.shift n))
      = (readValue stop ts).shift n id := by
  simp only [readValue, expect_shift, Read.shift]
  cases (expect stop .duration ts).value with
  | none => simp [skipToEnd_shift]
  | some word =>
    simp only [Option.map_some]
    cases (expect stop .quoted (expect stop .duration ts).rest).value with
    | none => simp [skipToEnd_shift]
    | some literal =>
      simp only [Option.map_some, text_shift]
      split <;> simp

theorem readDefinition_shift :
    readDefinition (stop + n) (ts.map (Token.shift n))
      = (readDefinition stop ts).shift n (·.map (Definition.shift n)) := by
  simp only [readDefinition, expect_shift, Read.shift]
  cases (expect stop .name ts).value with
  | none => rfl
  | some name =>
    cases (expect stop .name ts).rest with
    | nil => simp [Definition.shift]
    | cons sign ts =>
      simp only [Option.map_some, List.map_cons, kind_shift,
        readValue_shift, Read.shift]
      split <;> simp [Definition.shift]

/-- Reading an item does not mind where it stands. -/
theorem readItem_shift (t : Token) :
    readItem (stop + n) (t.shift n) (ts.map (Token.shift n))
      = (readItem stop t ts).shift n (·.map (Item.shift n)) := by
  simp only [readItem, kind_shift]
  split
  · simp only [readDefinition_shift, finish_shift, Read.shift]
    cases (readDefinition stop ts).value <;> simp [Item.shift]
  · simp only [expect_shift, finish_shift, Read.shift]
    cases (expect stop .name ts).value <;> simp [Item.shift, Reference.shift]
  · have hrecover := recover_shift n (t :: ts)
    rw [List.map_cons] at hrecover
    simp only [hrecover, Read.shift]
    split <;> simp

/-- Items that stand further on are read as the same items, moved on. -/
theorem readItems_shift :
    readItems (stop + n) (ts.map (Token.shift n))
      = ((readItems stop ts).1.map (Item.shift n),
          (readItems stop ts).2.map (Diagnostic.shift n)) := by
  fun_induction readItems stop ts with
  | case1 => rw [List.map_nil, readItems]; rfl
  | case2 t ts item more ih =>
    rw [List.map_cons, readItems, readItem_shift]
    show ((item.value.map (Item.shift n)).toList
        ++ (readItems (stop + n) (item.rest.map (Token.shift n))).1,
      item.issues.map (Diagnostic.shift n)
        ++ (readItems (stop + n) (item.rest.map (Token.shift n))).2) = _
    rw [ih, Option.toList_map, List.map_append, List.map_append]

/-- Items one behind the other make up one body. -/
theorem bodyOf_append (is js : List Item) :
    bodyOf (is ++ js)
      = ⟨(bodyOf is).definitions ++ (bodyOf js).definitions,
          (bodyOf is).references ++ (bodyOf js).references⟩ := by
  simp only [bodyOf, List.filterMap_append]

theorem bodyOf_shift (is : List Item) :
    bodyOf (is.map (Item.shift n))
      = ⟨(bodyOf is).definitions.map (Definition.shift n),
          (bodyOf is).references.map (Reference.shift n)⟩ := by
  simp only [bodyOf, List.filterMap_map, List.map_filterMap]
  congr 1
  · refine List.filterMap_congr fun i _ => ?_
    cases i <;> rfl
  · refine List.filterMap_congr fun i _ => ?_
    cases i <;> rfl

end Reader

namespace Token

/-- Where a text ends with a statement, its tokens and those of what
follows it are told apart. -/
theorem lex_append {a : String} (h : Ended (lex a)) (b : String) :
    lex (a ++ b) = lex a ++ (lex b).map (shift a.utf8ByteSize) := by
  rw [lex, String.toList_append, scanFrom_append h, String.utf8Len_toList,
    scanFrom_shift]
  rfl

/-- So are those that mean something, as far as there are offsets for
both. -/
theorem significant_append {a b : String}
    (hsize : (a ++ b).utf8ByteSize < Span.limit) (h : Ended (scan a)) :
    significant (a ++ b)
      = significant a ++ (significant b).map (shift a.utf8ByteSize) := by
  have hboth := hsize
  rw [String.utf8ByteSize_append] at hboth
  have ha : scan a = lex a := scan_eq_lex (by omega)
  have hb : scan b = lex b := scan_eq_lex (by omega)
  rw [significant, scan_eq_lex hsize, lex_append (ha ▸ h), ← ha, ← hb,
    List.filter_append, List.filter_map]
  rfl

/-- No trivia end a statement, so dropping them leaves its end. -/
theorem Ended.significant {a : String} (h : Ended (scan a)) :
    Ended (significant a) := by
  rcases List.eq_nil_or_concat' (scan a) with hnil | ⟨us, t, hlast⟩
  · simp [Token.significant, hnil, Ended]
  · have ht : t.kind.ends := h t (by rw [hlast, List.getLast?_concat]; rfl)
    have hkept : t.kind.isTrivia = false := by
      rcases TokenKind.ends_iff.1 ht with hk | hk <;> rw [hk] <;> rfl
    intro u hu
    rw [Token.significant, hlast, List.filter_append,
      List.filter_singleton, hkept] at hu
    obtain rfl : t = u := by simpa using hu
    exact ht

end Token

-- ============================================================ contents

namespace Content

open Reader Token

/-- Tokens that announce no project are items. -/
theorem ofTokens_of_head {stop : Nat} {ts : List Token}
    (h : ∀ t ∈ ts.head?, t.kind ∉ [.project, .profile, .tool]) :
    ofTokens stop ts
      = (.ordinary (bodyOf (readItems stop ts).1), (readItems stop ts).2) := by
  cases ts with
  | nil => rw [readItems]; rfl
  | cons t ts =>
    have hkind : projectKind? t.kind = none := by
      have ht := h t rfl
      cases hk : t.kind <;> simp_all [projectKind?]
    simp only [ofTokens, hkind]

/-- A text whose last token ends a statement is read as if nothing
followed it, and what follows it as if it stood alone, only moved on. -/
theorem ofText_append {a b : String}
    (hsize : (a ++ b).utf8ByteSize < Span.limit)
    (hend : ∃ t, (Token.scan a).getLast? = some t
      ∧ (t.kind = .semicolon ∨ t.kind = .closeBrace))
    (ha : ∀ t ∈ (Token.significant a).head?,
      t.kind ∉ [.project, .profile, .tool])
    (hb : ∀ t ∈ (Token.significant b).head?,
      t.kind ∉ [.project, .profile, .tool]) :
    ∃ x y : Body, (ofText a).1 = .ordinary x ∧ (ofText b).1 = .ordinary y
      ∧ ofText (a ++ b)
        = (.ordinary
            ⟨x.definitions ++ y.definitions.map (·.shift a.utf8ByteSize),
              x.references ++ y.references.map (·.shift a.utf8ByteSize)⟩,
          (ofText a).2 ++ (ofText b).2.map (·.shift a.utf8ByteSize)) := by
  obtain ⟨t, hlast, hmark⟩ := hend
  have hended : Ended (scan a) := fun u hu => by
    rw [hlast] at hu
    obtain rfl := Option.some.inj hu
    exact TokenKind.ends_iff.2 hmark
  have hsignificant := significant_append hsize hended
  have hab : ∀ t ∈ (Token.significant (a ++ b)).head?,
      t.kind ∉ [.project, .profile, .tool] := by
    intro u hu
    rw [hsignificant, List.head?_append, List.head?_map] at hu
    cases hfirst : (Token.significant a).head? with
    | some v =>
      rw [hfirst] at hu
      exact ha u (hfirst ▸ hu)
    | none =>
      rw [hfirst] at hu
      obtain ⟨v, hv, rfl⟩ := Option.map_eq_some_iff.1 hu
      exact hb v hv
  have hboth := hsize
  rw [String.utf8ByteSize_append] at hboth
  have hsizea : a.utf8ByteSize < Span.limit := by omega
  have hsizeb : b.utf8ByteSize < Span.limit := by omega
  rw [ofText_of_lt hsizea, ofText_of_lt hsizeb, ofText_of_lt hsize,
    ofTokens_of_head ha, ofTokens_of_head hb, ofTokens_of_head hab]
  refine ⟨_, _, rfl, rfl, ?_⟩
  rw [hsignificant, readItems_append _ a.utf8ByteSize hended.significant,
    String.utf8ByteSize_append, Nat.add_comm, readItems_shift,
    bodyOf_append, bodyOf_shift]

/-- Both texts are malformed, the first throughout and up to its end. -/
theorem ofText_append_malformed :
    ("def A = \x7d ref ;" ++ "\x7d def B").utf8ByteSize < Span.limit
      ∧ (∃ t, (Token.scan "def A = \x7d ref ;").getLast? = some t
        ∧ (t.kind = .semicolon ∨ t.kind = .closeBrace))
      ∧ (∀ t ∈ (Token.significant "def A = \x7d ref ;").head?,
        t.kind ∉ [.project, .profile, .tool])
      ∧ (∀ t ∈ (Token.significant "\x7d def B").head?,
        t.kind ∉ [.project, .profile, .tool])
      ∧ ∃ x y : Body, (ofText "def A = \x7d ref ;").1 = .ordinary x
        ∧ (ofText "\x7d def B").1 = .ordinary y
        ∧ ofText ("def A = \x7d ref ;" ++ "\x7d def B")
          = (.ordinary ⟨x.definitions ++ y.definitions.map (·.shift 15),
              x.references ++ y.references.map (·.shift 15)⟩,
            (ofText "def A = \x7d ref ;").2
              ++ (ofText "\x7d def B").2.map (·.shift 15)) := by
  have hsize : ("def A = \x7d ref ;" ++ "\x7d def B").utf8ByteSize
      < Span.limit := by
    decide +kernel
  have hend : (Token.scan "def A = \x7d ref ;").getLast?
      = some ⟨.semicolon, 14, ";"⟩ := by
    decide +kernel
  have ha : (Token.significant "def A = \x7d ref ;").head?
      = some ⟨.definition, 0, "def"⟩ := by
    decide +kernel
  have hb : (Token.significant "\x7d def B").head?
      = some ⟨.closeBrace, 0, "\x7d"⟩ := by
    decide +kernel
  have ha' : ∀ t ∈ (Token.significant "def A = \x7d ref ;").head?,
      t.kind ∉ [.project, .profile, .tool] := by
    rw [ha]; decide
  have hb' : ∀ t ∈ (Token.significant "\x7d def B").head?,
      t.kind ∉ [.project, .profile, .tool] := by
    rw [hb]; decide
  exact ⟨hsize, ⟨_, hend, .inl rfl⟩, ha', hb',
    ofText_append hsize ⟨_, hend, .inl rfl⟩ ha' hb'⟩

end Content

end Purview

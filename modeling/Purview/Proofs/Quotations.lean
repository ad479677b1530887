/-
Quoted texts are spelled out twice: by the pattern that the lexer takes
them by, and by the reader of literals. That the two agree is shown part
by part. A part of a quoted text is one character, or a backslash and
the next; writing gives each character such a part (`escape_cases`), and
so writes what the pattern closes on (`flatMap_escape_mem_closing`).

The other way round, whatever the pattern closes on ends with the one
quote that no backslash takes along. The reader therefore finds a quote
at the end, none before it, and a character behind each backslash: all
that it can still refuse is what the backslash is put before
(`decodeBody_dropLast`).

None of this minds how long a text is. Only handing tokens out does: the
one token of a quotation has an extent or has none, and with that it is
said which quotations come through (`scan_quote`).
-/
import Purview.Literal.Quoted
import Purview.Proofs.Lossless

namespace Purview

open TokenKind

namespace Quoted

variable {c d : Char} {w : List Char}

-- ============================================================= writing

/-- A character stands for itself, or a backslash is put before the one
that stands for it. -/
theorem escape_cases (c : Char) :
    escape c = [c] ∧ c ≠ '"' ∧ c ≠ '\\' ∧ c ≠ '\n'
      ∨ ∃ e, escape c = ['\\', e] ∧ unescape? e = some c ∧ e ≠ '\n' := by
  unfold escape
  split
  · next h => subst h; exact .inr ⟨'"', rfl, rfl, by decide⟩
  split
  · next h => subst h; exact .inr ⟨'\\', rfl, rfl, by decide⟩
  split
  · next h => subst h; exact .inr ⟨'n', rfl, rfl, by decide⟩
  split
  · next h => subst h; exact .inr ⟨'t', rfl, rfl, by decide⟩
  split
  · next h => subst h; exact .inr ⟨'r', rfl, rfl, by decide⟩
  · next hquote hescape hline _ _ => exact .inl ⟨rfl, hquote, hescape, hline⟩

/-- What is written between quotes closes at the end and not before. -/
theorem flatMap_escape_mem_closing (text : List Char) :
    text.flatMap escape ++ ['"'] ∈ closing := by
  induction text with
  | nil => exact cons_mem_closing.2 (.inl ⟨rfl, rfl⟩)
  | cons c text ih =>
    rw [List.flatMap_cons, List.append_assoc]
    rcases escape_cases c with ⟨heq, hplain⟩ | ⟨e, heq, -, hline⟩
    · rw [heq]
      exact cons_mem_closing.2 (.inr (.inl ⟨hplain, ih⟩))
    · rw [heq]
      exact cons_mem_closing.2 (.inr (.inr ⟨rfl, e, _, rfl, hline, ih⟩))

-- ============================================================= reading

theorem decodeBody_plain (hquote : c ≠ '"') (hescape : c ≠ '\\')
    (stop here : Nat) (body : List Char) :
    decodeBody stop here (c :: body)
      = (decodeBody stop (here + c.utf8Size) body).map (c :: ·) := by
  rw [decodeBody.eq_def]
  simp only [hquote, hescape, if_false]
  cases decodeBody stop (here + c.utf8Size) body <;> rfl

theorem decodeBody_escaped (h : unescape? c = some d) (stop here : Nat)
    (body : List Char) :
    decodeBody stop here ('\\' :: c :: body)
      = (decodeBody stop (here + 1 + c.utf8Size) body).map (d :: ·) := by
  rw [decodeBody.eq_def]
  simp only [if_true, h]
  cases decodeBody stop (here + 1 + c.utf8Size) body <;> rfl

theorem decodeBody_invalid (h : unescape? c = none) (stop here : Nat)
    (body : List Char) :
    decodeBody stop here ('\\' :: c :: body)
      = .error (.invalidEscape c (here + 1)) := by
  rw [decodeBody.eq_def]
  simp only [if_true, h]

/-- Reading gives back what was written. -/
theorem decodeBody_flatMap_escape (stop here : Nat) (text : List Char) :
    decodeBody stop here (text.flatMap escape) = .ok text := by
  induction text generalizing here with
  | nil => rfl
  | cons c text ih =>
    rw [List.flatMap_cons]
    rcases escape_cases c with ⟨heq, hquote, hescape, -⟩ | ⟨e, heq, he, -⟩
    · rw [heq, List.singleton_append, decodeBody_plain hquote hescape, ih]
      rfl
    · rw [heq, List.cons_append, List.singleton_append,
        decodeBody_escaped he, ih]
      rfl

/-- Something is read, or refused for an escape that means nothing. -/
def Legible {α : Type} (r : Except LiteralError α) : Prop :=
  (∃ a, r = .ok a) ∨ ∃ c offset, r = .error (.invalidEscape c offset)

theorem Legible.map {α β : Type} {r : Except LiteralError α}
    (h : Legible r) (f : α → β) : Legible (r.map f) := by
  rcases h with ⟨a, rfl⟩ | ⟨c, offset, rfl⟩
  · exact .inl ⟨f a, rfl⟩
  · exact .inr ⟨c, offset, rfl⟩

theorem ne_nil_of_mem_closing (h : w ∈ closing) : w ≠ [] :=
  fun hnil => nil_notMem_closing (hnil ▸ h)

/-- What stands before the quote that closes is legible. -/
theorem decodeBody_dropLast (h : w ∈ closing) (stop here : Nat) :
    Legible (decodeBody stop here w.dropLast) := by
  induction w, h using closing_induction generalizing here with
  | quote => exact .inl ⟨[], rfl⟩
  | plain c w hw _ hquote hescape _ ih =>
    rw [List.dropLast_cons_of_ne_nil (ne_nil_of_mem_closing hw),
      decodeBody_plain hquote hescape]
    exact (ih _).map _
  | escaped e w hw _ _ ih =>
    rw [List.dropLast_cons_of_ne_nil (List.cons_ne_nil _ _),
      List.dropLast_cons_of_ne_nil (ne_nil_of_mem_closing hw)]
    cases he : unescape? e with
    | none =>
      rw [decodeBody_invalid he]
      exact .inr ⟨e, here + 1, rfl⟩
    | some d =>
      rw [decodeBody_escaped he]
      exact (ih _).map _

theorem getLast?_of_mem_closing (h : w ∈ closing) :
    w.getLast? = some '"' := by
  obtain ⟨_, _, _, ⟨d, hd, rfl⟩, rfl⟩ := h
  rw [List.getLast?_concat, of_decide_eq_true hd]

/-- Every text of the pattern is legible. -/
theorem legible_decode {literal : String}
    (h : literal.toList ∈ TokenKind.quoted.pattern) :
    Legible (decode literal) := by
  cases hliteral : literal.toList with
  | nil => exact absurd (hliteral ▸ h) (nil_notMem_pattern _)
  | cons q w =>
    obtain ⟨hq, hw⟩ := cons_mem_single_mul.1 (hliteral ▸ h)
    rw [decode, hliteral]
    dsimp only
    rw [if_neg (not_not_intro (of_decide_eq_true hq)),
      if_neg (not_not_intro (getLast?_of_mem_closing hw))]
    exact decodeBody_dropLast hw _ _

end Quoted

open Quoted

-- ================================================= literals and tokens

/-- What is quoted can be read again. -/
theorem unquote_quote (s : String) : unquote (quote s) = .ok s := by
  rw [unquote, decode, quote, String.toList_ofList, encode]
  simp [decodeBody_flatMap_escape, Except.map]

/-- What is quoted is a token by itself. -/
theorem lex_quote (s : String) :
    Token.lex (quote s) = [⟨.quoted, 0, quote s⟩] := by
  have htail := Lexeme.quotedTail_of_mem
    (flatMap_escape_mem_closing s.toList) []
  rw [List.append_nil] at htail
  have hnext : Lexeme.next '"' (s.toList.flatMap escape ++ ['"'])
      = ⟨.quoted, encode s.toList, []⟩ := by
    rw [Lexeme.next_quote, htail]
    rfl
  rw [Token.lex, quote, String.toList_ofList, encode,
    Token.scanFrom_cons, hnext, Token.scanFrom]
  rfl

/-- The token is handed out if the quotation ends where there are
offsets, and a longer one gives none at all. -/
theorem scan_quote (s : String) :
    Token.scan (quote s)
      = if (quote s).utf8ByteSize < Span.limit then
          [⟨.quoted, 0, quote s⟩]
        else [] := by
  have hfits : Token.fits ⟨.quoted, 0, quote s⟩
      = decide ((quote s).utf8ByteSize < Span.limit) := by
    rw [Token.fits, Token.span, Nat.zero_add]
  rw [Token.scan, lex_quote, List.takeWhile_cons, hfits]
  split <;> simp_all

/-- What is quoted can be read again and is one token of the tokenizer,
whatever its length; the iterator hands the token out if it ends where
there are offsets. And any token of quoted text is legible. -/
theorem quoted_legible :
    (∀ s : String, unquote (quote s) = .ok s
        ∧ Token.lex (quote s) = [⟨.quoted, 0, quote s⟩]
        ∧ Token.scan (quote s)
          = if (quote s).utf8ByteSize < Span.limit then
              [⟨.quoted, 0, quote s⟩]
            else [])
      ∧ ∀ text : String, ∀ t ∈ Token.lex text, t.kind = .quoted →
        (∃ s, unquote t.text = .ok s)
          ∨ ∃ c offset,
            unquote t.text = .error (.invalidEscape c offset) := by
  refine ⟨fun s => ⟨unquote_quote s, lex_quote s, scan_quote s⟩, ?_⟩
  intro text t ht hkind
  have hmem : t.text.toList ∈ TokenKind.quoted.pattern :=
    hkind ▸ Token.mem_pattern ht (by simp [hkind])
  exact (legible_decode hmem).map String.ofList

/-- The lexer takes an escape that the reader of literals does not
know. -/
theorem quoted_legible_unknown :
    ⟨.quoted, 7, "\"a\\q\""⟩ ∈ Token.lex "source \"a\\q\";"
      ∧ ((∃ s, unquote "\"a\\q\"" = .ok s)
        ∨ ∃ c offset,
          unquote "\"a\\q\"" = .error (.invalidEscape c offset)) := by
  have hmem : ⟨.quoted, 7, "\"a\\q\""⟩ ∈ Token.lex "source \"a\\q\";" := by
    decide +kernel
  exact ⟨hmem, quoted_legible.2 _ _ hmem rfl⟩

end Purview

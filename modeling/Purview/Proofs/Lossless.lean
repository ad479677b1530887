/-
Taking tokens loses nothing of a text, and what it takes is as long as
can be. Each token is the lexeme at the front of what the tokens before
it leave (`Token.scanFrom_of_split`), so whatever holds of a lexeme is
known of every token of every text: its span starts behind the bytes of
those before it, and it is the longest match at its place
(`Token.greedy_of_split`).

That two runs never stand side by side is then no matter of how runs are
taken. The first character of the second would have made the first one
longer, and nothing longer may match (`Token.not_run_cons`). That a word
is kept for the language exactly if it is spelled so comes from the
patterns alone: only a name matches as much as a kept word does, and the
kept word goes before.
-/
import Mathlib.Data.List.Chain
import Mathlib.Data.String.Basic
import Purview.Proofs.Patterns

namespace Purview

open Computability

-- =============================================================== bytes

/-- Splits a text behind its first `n` bytes, if that is the end of a
character. -/
def splitBytes? (n : Nat) : List Char → Option (List Char × List Char)
  | [] => if n = 0 then some ([], []) else none
  | c :: cs =>
    if n = 0 then some ([], c :: cs)
    else if c.utf8Size ≤ n then
      (splitBytes? (n - c.utf8Size) cs).map fun (taken, rest) =>
        (c :: taken, rest)
    else none

/-- Behind the bytes of its front a text splits into that and the
rest. -/
theorem splitBytes?_append (xs ys : List Char) :
    splitBytes? (String.utf8Len xs) (xs ++ ys) = some (xs, ys) := by
  induction xs with
  | nil => cases ys <;> rfl
  | cons c xs ih =>
    have hpos := Char.utf8Size_pos c
    have hne : String.utf8Len xs + c.utf8Size ≠ 0 := by omega
    rw [List.cons_append, splitBytes?, String.utf8Len_cons, if_neg hne,
      if_pos (Nat.le_add_left _ _), Nat.add_sub_cancel, ih]
    rfl

namespace Span

/-- What a text has in a span. A span that ends before it starts, ends
behind the text or cuts a character has nothing. -/
def slice? (span : Span) (text : String) : Option String := do
  guard (span.start ≤ span.stop)
  let (_, rest) ← splitBytes? span.start text.toList
  let (taken, _) ← splitBytes? (span.stop - span.start) rest
  return String.ofList taken

/-- What stands behind some front of a text is what the text has
there. -/
theorem slice?_of_append {text : String} {before after : List Char}
    {s : String} (h : text.toList = before ++ (s.toList ++ after)) :
    slice? ⟨String.utf8Len before,
        String.utf8Len before + s.utf8ByteSize⟩ text
      = some s := by
  have hsecond := splitBytes?_append s.toList after
  rw [String.utf8Len_toList] at hsecond
  simp [slice?, h, splitBytes?_append, hsecond]

/-- Spans lie one behind the other from one place to another, none of
them empty and nothing between them. -/
def Tiles (start stop : Nat) : List Span → Prop
  | [] => start = stop
  | s :: ss => s.start = start ∧ s.start < s.stop ∧ Tiles s.stop stop ss

/-- One span lies behind another. -/
def Before (a b : Span) : Prop := a.start < b.start ∧ a.stop ≤ b.start

/-- None of the spans reaches beyond what they cover together. -/
theorem Tiles.bounds {start stop : Nat} {ss : List Span}
    (h : Tiles start stop ss) :
    start ≤ stop
      ∧ ∀ s ∈ ss, start ≤ s.start ∧ s.start < s.stop ∧ s.stop ≤ stop := by
  induction ss generalizing start with
  | nil => exact ⟨Nat.le_of_eq h, by simp⟩
  | cons s ss ih =>
    obtain ⟨rfl, hlt, hrest⟩ := h
    obtain ⟨hle, hall⟩ := ih hrest
    refine ⟨by omega, fun r hr => ?_⟩
    rcases List.mem_cons.1 hr with rfl | hr
    · exact ⟨Nat.le_refl _, hlt, hle⟩
    · have hr := hall r hr
      omega

/-- Spans that cover an extent lie one behind the other in it. -/
theorem Tiles.pairwise {start stop : Nat} {ss : List Span}
    (h : Tiles start stop ss) : ss.Pairwise Before := by
  induction ss generalizing start with
  | nil => exact .nil
  | cons s ss ih =>
    obtain ⟨-, hlt, hrest⟩ := h
    refine .cons (fun r hr => ?_) (ih hrest)
    have hr := hrest.bounds.2 r hr
    exact ⟨by omega, hr.1⟩

end Span

-- ============================================================== tokens

namespace Token

open Lexeme TokenKind

/-- The characters of a token. -/
def chars (t : Token) : List Char := t.text.toList

/-- The text that tokens make up. -/
def spelled (ts : List Token) : List Char := ts.flatMap chars

theorem spelled_cons (t : Token) (ts : List Token) :
    spelled (t :: ts) = t.chars ++ spelled ts := List.flatMap_cons

/-- A text gives its first lexeme, and then what gives the rest of it
behind the bytes of that. -/
theorem scanFrom_cons (start : Nat) (c : Char) (cs : List Char) :
    scanFrom start (c :: cs)
      = ⟨(next c cs).kind, start, String.ofList (next c cs).chars⟩
        :: scanFrom (start + String.utf8Len (next c cs).chars)
          (next c cs).rest := by
  rw [scanFrom, span, String.utf8ByteSize_ofList]

/-- Nothing of a text is lost. -/
theorem scanFrom_spelled (start : Nat) (cs : List Char) :
    spelled (scanFrom start cs) = cs := by
  fun_induction scanFrom start cs with
  | case1 => rfl
  | case2 start c cs lexeme token ih =>
    rw [spelled_cons, ih, chars, String.toList_ofList]
    exact next_append c cs

/-- Tokens cover their text byte by byte. -/
theorem tiles_scanFrom (start : Nat) (cs : List Char) :
    Span.Tiles start (start + String.utf8Len cs)
      ((scanFrom start cs).map span) := by
  fun_induction scanFrom start cs with
  | case1 => rfl
  | case2 start c cs lexeme token ih =>
    have hstop : token.span.stop = start + String.utf8Len lexeme.chars :=
      congrArg (start + ·) (String.utf8ByteSize_ofList _)
    have hpos : String.utf8Len lexeme.chars ≠ 0 :=
      mt String.utf8Len_eq_zero.1 (next_chars_ne_nil c cs)
    have happ := congrArg String.utf8Len (next_append c cs)
    rw [String.utf8Len_append] at happ
    rw [hstop, Nat.add_assoc, happ] at ih
    refine ⟨rfl, ?_, hstop ▸ ih⟩
    rw [hstop]
    exact Nat.lt_add_of_pos_right (Nat.pos_of_ne_zero hpos)

/-- From any token on, the tokens of a text are those of what is left. -/
theorem scanFrom_of_split {start : Nat} {cs : List Char} {us vs : List Token}
    (h : scanFrom start cs = us ++ vs) :
    vs = scanFrom (start + String.utf8Len (spelled us)) (spelled vs) := by
  induction us generalizing start cs with
  | nil =>
    rw [List.nil_append] at h
    rw [← h, scanFrom_spelled]
    rfl
  | cons t us ih =>
    cases cs with
    | nil => simp [scanFrom] at h
    | cons c cs =>
      rw [scanFrom_cons, List.cons_append] at h
      obtain ⟨rfl, hrest⟩ := List.cons.inj h
      have hvs := ih hrest
      rw [spelled_cons, String.utf8Len_append, ← Nat.add_assoc, chars,
        String.toList_ofList]
      exact hvs

variable {start : Nat} {cs : List Char} {t u : Token} {us vs : List Token}

/-- A token stands behind what the tokens before it make up, and is what
a greedy lexer takes there. -/
theorem greedy_of_split (h : scanFrom start cs = us ++ t :: vs) :
    t.start = start + String.utf8Len (spelled us) ∧ t.chars ≠ []
      ∧ Greedy (spelled (t :: vs)) t.kind t.chars := by
  have hscan := scanFrom_of_split h
  cases htext : spelled (t :: vs) with
  | nil =>
    rw [htext, scanFrom] at hscan
    cases hscan
  | cons c cs =>
    rw [htext, scanFrom_cons] at hscan
    obtain ⟨rfl, -⟩ := List.cons.inj hscan
    rw [chars, String.toList_ofList]
    exact ⟨rfl, next_chars_ne_nil c cs, greedy_next c cs⟩

end Token

-- ===================================================== longest matches

namespace Lexeme

open TokenKind

variable {text w : List Char} {k : TokenKind}

/-- A valid token matches its pattern, and nothing longer matches any. -/
theorem Greedy.of_valid (h : Greedy text k w) (hk : k ≠ .invalid) :
    w ∈ k.pattern ∧ ∀ (v : List Char) (k' : TokenKind), v <+: text →
      v ∈ k'.pattern → v.length ≤ w.length := by
  cases h with
  | longest _ matched longest _ => exact ⟨matched, longest⟩
  | stray | unclosed => exact absurd rfl hk

/-- What matches a pattern is not invalid, and of that kind unless it is
also a word that is kept for the language. -/
theorem Greedy.of_mem (h : Greedy text k w) (hfront : w <+: text)
    {k' : TokenKind} (hw : w ∈ k'.pattern) :
    k ≠ .invalid ∧ (k' = k ∨ k' = .name) := by
  cases h with
  | longest _ matched _ preferred =>
    refine ⟨?_, preferred k' hw⟩
    rintro rfl
    exact matched.elim
  | stray _ unmatched | unclosed unmatched =>
    exact absurd hw (unmatched _ _ hfront)

end Lexeme

namespace Token

open Lexeme TokenKind

variable {start : Nat} {cs : List Char} {t u : Token} {us vs : List Token}

theorem chars_prefix (t : Token) (ts : List Token) :
    t.chars <+: spelled (t :: ts) :=
  ⟨spelled ts, (spelled_cons t ts).symm⟩

/-- Two runs of one kind never stand side by side: the first would have
gone on with the first character of the second. -/
theorem not_run_cons {p q : Char → Bool} {k : TokenKind}
    (hk : k.pattern = single p * (single q)∗) (hpq : ∀ c, p c → q c)
    (h : scanFrom start cs = us ++ t :: u :: vs) (hvalid : t.kind ≠ .invalid)
    (ht : t.chars ∈ k.pattern) (hu : u.chars ∈ k.pattern) : False := by
  obtain ⟨c, w, hchars⟩ : ∃ c w, u.chars = c :: w :=
    List.exists_cons_of_ne_nil fun hnil => nil_notMem_pattern k (hnil ▸ hu)
  rw [hchars, hk, cons_mem_single_mul] at hu
  have hlonger : t.chars ++ [c] ∈ k.pattern := by
    rw [hk] at ht ⊢
    exact concat_mem_run ht (hpq c hu.1)
  have hfront : t.chars ++ [c] <+: spelled (t :: u :: vs) := by
    refine ⟨w ++ spelled vs, ?_⟩
    rw [spelled_cons, spelled_cons, hchars, List.append_assoc]
    rfl
  have hle :=
    ((greedy_of_split h).2.2.of_valid hvalid).2 _ k hfront hlonger
  rw [List.length_append, List.length_singleton] at hle
  exact Nat.not_succ_le_self _ hle

/-- A valid token matches the pattern of its kind. -/
theorem mem_pattern (ht : t ∈ scanFrom start cs) (hk : t.kind ≠ .invalid) :
    t.chars ∈ t.kind.pattern := by
  obtain ⟨us, vs, h⟩ := List.append_of_mem ht
  exact ((greedy_of_split h).2.2.of_valid hk).1

theorem blanks_apart (h : scanFrom start cs = us ++ t :: u :: vs) :
    ¬ (t.kind = .blank ∧ u.kind = .blank) := by
  rintro ⟨ht, hu⟩
  have hmem {v : Token} (hv : v ∈ scanFrom start cs)
      (hkind : v.kind = .blank) : v.chars ∈ blank.pattern :=
    hkind ▸ mem_pattern hv (by simp [hkind])
  exact not_run_cons rfl (fun _ => id) h (by simp [ht])
    (hmem (by simp [h]) ht) (hmem (by simp [h]) hu)

theorem words_apart (h : scanFrom start cs = us ++ t :: u :: vs) :
    ¬ (t.kind.isWord ∧ u.kind.isWord) := by
  rintro ⟨ht, hu⟩
  have hvalid {v : Token} (hv : v.kind.isWord) : v.kind ≠ .invalid := by
    rintro heq
    rw [heq] at hv
    exact absurd hv (by decide)
  have hmem {v : Token} (hv : v ∈ scanFrom start cs) (hkind : v.kind.isWord) :
      v.chars ∈ name.pattern :=
    mem_name_of_isWord hkind (mem_pattern hv (hvalid hkind))
  exact not_run_cons rfl (fun _ => isWordPart_of_isWordStart) h
    (hvalid ht) (hmem (by simp [h]) ht) (hmem (by simp [h]) hu)

-- ========================================================= whole texts

variable {text : String}

/-- The tokens of a text cover it from its first byte to its last. -/
theorem tiles_lex (text : String) :
    Span.Tiles 0 text.utf8ByteSize ((lex text).map span) := by
  have htiles := tiles_scanFrom 0 text.toList
  rwa [Nat.zero_add, String.utf8Len_toList] at htiles

/-- A token is what the text has in its span. -/
theorem slice?_span (ht : t ∈ lex text) :
    t.span.slice? text = some t.text := by
  obtain ⟨us, vs, h⟩ := List.append_of_mem ht
  rw [lex] at h
  have hstart := (greedy_of_split h).1
  have htext : text.toList = spelled us ++ (t.text.toList ++ spelled vs) := by
    have hspelled := scanFrom_spelled 0 text.toList
    rw [h, spelled, List.flatMap_append] at hspelled
    exact hspelled.symm
  rw [Nat.zero_add] at hstart
  rw [span, hstart]
  exact Span.slice?_of_append htext

/-- A token with the form of a name is of the kind of a word that is kept
for the language exactly if it is that word. -/
theorem kind_eq_iff (ht : t ∈ lex text) (hname : t.chars ∈ name.pattern)
    {word : String} {kind : TokenKind} (hword : (word, kind) ∈ keywords) :
    t.kind = kind ↔ t.text = word := by
  obtain ⟨us, vs, h⟩ := List.append_of_mem ht
  obtain ⟨-, -, hgreedy⟩ := greedy_of_split h
  obtain ⟨hpattern, hne⟩ := pattern_of_mem_keywords hword
  have hfront := chars_prefix t vs
  constructor
  · rintro rfl
    have hmem := mem_pattern ht (hgreedy.of_mem hfront hname).1
    rw [hpattern] at hmem
    exact String.toList_inj.1 hmem
  · rintro rfl
    have hmem : t.chars ∈ kind.pattern := by
      rw [hpattern]
      rfl
    exact ((hgreedy.of_mem hfront hmem).2.resolve_right hne).symm

/-- What the tokens of a text are to the text. -/
structure Lossless (text : String) (ts : List Token) : Prop where
  /-- No token is empty. -/
  nonempty : ∀ t ∈ ts, t.text ≠ ""
  /-- The tokens cover the text from its first byte to its last. -/
  tiled : Span.Tiles 0 text.utf8ByteSize (ts.map span)
  /-- A token is what the text has in its span. -/
  sliced : ∀ t ∈ ts, t.span.slice? text = some t.text
  /-- Put together the tokens are the text. -/
  joined : String.join (ts.map Token.text) = text
  /-- Blanks are taken together. -/
  blanks : ts.IsChain fun t u => ¬ (t.kind = .blank ∧ u.kind = .blank)
  /-- So is all of a word. -/
  words : ts.IsChain fun t u => ¬ (t.kind.isWord ∧ u.kind.isWord)
  /-- A token with the form of a name is kept for the language exactly if
  it is one of the words that are. -/
  kept : ∀ t ∈ ts, t.chars ∈ name.pattern →
    ∀ word kind, (word, kind) ∈ keywords → (t.kind = kind ↔ t.text = word)
  /-- Each token is the longest match at its place. -/
  greedy : ∀ us t vs, ts = us ++ t :: vs →
    Greedy (spelled (t :: vs)) t.kind t.chars

/-- Taking tokens loses nothing of a text, and takes the longest. -/
theorem lossless_lex (text : String) : Lossless text (lex text) where
  nonempty t ht hempty := by
    obtain ⟨us, vs, h⟩ := List.append_of_mem ht
    have hne := (greedy_of_split h).2.1
    rw [chars, hempty] at hne
    exact hne rfl
  tiled := tiles_lex text
  sliced _ ht := slice?_span ht
  joined := by
    rw [← String.toList_inj, String.toList_join, List.flatMap_map]
    exact scanFrom_spelled 0 text.toList
  blanks := List.isChain_iff_forall_rel_of_append_cons_cons.2
    fun _ _ _ _ h => blanks_apart h
  words := List.isChain_iff_forall_rel_of_append_cons_cons.2
    fun _ _ _ _ h => words_apart h
  kept _ ht hname _ _ hword := kind_eq_iff ht hname hword
  greedy _ _ _ h := (greedy_of_split h).2.2

/-- Tokens are handed out in order and as they are. -/
theorem scan_begins_lex (text : String) : scan text <+: lex text :=
  List.takeWhile_prefix fits

/-- They all are if the text ends before the offsets do. -/
theorem scan_eq_lex (h : text.utf8ByteSize < Span.limit) :
    scan text = lex text := by
  refine List.takeWhile_eq_self_iff.2 fun t ht => decide_eq_true ?_
  have hstop := ((tiles_lex text).bounds.2 _ (List.mem_map_of_mem ht)).2.2
  exact Nat.lt_of_le_of_lt hstop h

/-- Of a text that ends before the offsets do, nothing is lost on the
way to its tokens. -/
theorem lossless_scan (h : text.utf8ByteSize < Span.limit) :
    Lossless text (scan text) := by
  rw [scan_eq_lex h]
  exact lossless_lex text

/-- A quote that is not closed, a mark that no token starts with, and
characters of two bytes. -/
theorem lossless_scan_unclosed :
    "\"é\n/é".utf8ByteSize < Span.limit
      ∧ scan "\"é\n/é"
        = [⟨.invalid, 0, "\"é"⟩, ⟨.blank, 3, "\n"⟩, ⟨.invalid, 4, "/"⟩,
          ⟨.invalid, 5, "é"⟩]
      ∧ Lossless "\"é\n/é" (scan "\"é\n/é") := by
  have h : "\"é\n/é".utf8ByteSize < Span.limit := by decide +kernel
  exact ⟨h, by decide +kernel, lossless_scan h⟩

end Token

end Purview

/-
Reading what a document says from its tokens. The grammar is

  file        ::= descriptor | item*
  descriptor  ::= (project | profile | tool) NAME { entry* }
  entry       ::= depends NAME ; | source QUOTED ;
  item        ::= def NAME (= duration QUOTED)? ; | ref NAME ;

and no text within the reach of offsets is refused: whatever departs
from it becomes an issue, and reading goes on behind the next `;` or at
the next `}`. Each reader takes tokens off the front and returns what it
read, the issues it met and the tokens that are left (`Read`). A
statement always takes its first word with it and nothing that is
skipped comes back, so the tokens left over shrink and the loops over
statements end.
-/
import Purview.Content
import Purview.Diagnostic
import Purview.Literal.Quoted
import Purview.Token.Lexer

namespace Purview

/-- The ways in which a text departs from the grammar. -/
inductive Issue where
  /-- A token of one kind has to follow and does not; `none` is the end
  of the text. -/
  | expected (wanted : TokenKind) (found : Option TokenKind)
  /-- Something other than an entry stands in a descriptor. -/
  | notAnEntry (found : TokenKind)
  /-- Something other than an item stands in an ordinary document. -/
  | notAnItem (found : TokenKind)
  /-- The text ends inside a descriptor. -/
  | unclosed
  /-- Something follows the descriptor. -/
  | afterDescriptor (found : TokenKind)
  /-- A source folder cannot be read. -/
  | folder (cause : LiteralError)
  /-- A duration cannot be read. -/
  | duration (cause : LiteralError)
  /-- The text has more bytes than there are offsets. -/
  | tooLong (bytes : Nat)
deriving DecidableEq

namespace Issue

/-- The text shown for an issue. -/
def message : Issue → String
  | expected wanted found =>
    "expected " ++ wanted.describe ++ ", found "
      ++ (match found with
        | some kind => kind.describe
        | none => "end of file")
  | notAnEntry found =>
    "expected `depends`, `source` or `\x7d`, found " ++ found.describe
  | notAnItem found => "expected `def` or `ref`, found " ++ found.describe
  | unclosed => "expected `\x7d` to close the descriptor"
  | afterDescriptor found =>
    "unexpected " ++ found.describe ++ " after descriptor"
  | folder cause => cause.message
  | duration cause => "invalid duration: " ++ cause.message
  | tooLong bytes =>
    "document of " ++ Nat.repr bytes ++ " bytes exceeds the 4 GiB limit"

/-- The code of an issue: literals have one of their own. -/
def code : Issue → String
  | folder _ | duration _ => Diagnostic.Code.unreadableLiteral
  | _ => Diagnostic.Code.unreadableText

/-- An issue at a span of the text. -/
def diagnose (issue : Issue) (span : Span) : Diagnostic :=
  ⟨span, .error, .parser, some issue.code, issue.message⟩

end Issue

/-- What a reader took off the front of a list of tokens. -/
structure Read (α : Type) where
  value : α
  issues : List Diagnostic
  rest : List Token

namespace Reader

-- ==================================================== tokens in general

/-- Skips up to the next `;` or `}`. -/
def skipToEnd : List Token → List Token
  | [] => []
  | t :: ts =>
    if t.kind = .semicolon ∨ t.kind = .closeBrace then t :: ts
    else skipToEnd ts

/-- Skips past the next `;`, or up to the next `}`. -/
def recover : List Token → List Token
  | [] => []
  | t :: ts =>
    if t.kind = .semicolon then ts
    else if t.kind = .closeBrace then t :: ts
    else recover ts

/-- Takes a token of one kind, or reports what stands in its place. The
text ends at offset `stop`. -/
def expect (stop : Nat) (kind : TokenKind) : List Token → Read (Option Token)
  | [] => ⟨none, [(Issue.expected kind none).diagnose (.empty stop)], []⟩
  | t :: ts =>
    if t.kind = kind then ⟨some t, [], ts⟩
    else
      ⟨none, [(Issue.expected kind (some t.kind)).diagnose t.span], t :: ts⟩

/-- A token of the wanted kind is taken. -/
theorem expect_of_kind (stop : Nat) {kind : TokenKind} {t : Token}
    (h : t.kind = kind) (ts : List Token) :
    expect stop kind (t :: ts) = ⟨some t, [], ts⟩ := by
  rw [expect, if_pos h]

/-- A token of the wanted kind stands first, or there is an issue. -/
theorem expect_cases (stop : Nat) (kind : TokenKind) (ts : List Token) :
    (∃ t rest, ts = t :: rest ∧ t.kind = kind)
      ∨ (expect stop kind ts).value = none
        ∧ (expect stop kind ts).issues ≠ [] := by
  unfold expect
  split
  · exact .inr ⟨rfl, List.cons_ne_nil _ _⟩
  · next t rest =>
    split
    · next h => exact .inl ⟨t, rest, rfl, h⟩
    · exact .inr ⟨rfl, List.cons_ne_nil _ _⟩

/-- Ends a statement: takes its `;`, or reports that it is missing and
skips to where the next statement can start. -/
def finish (stop : Nat) (ts : List Token) : Read Unit :=
  let closing := expect stop .semicolon ts
  ⟨(), closing.issues,
    if closing.value.isSome then closing.rest else recover closing.rest⟩

-- ====================================================== project entries

/-- What stands between the braces of a descriptor. -/
inductive Entry where
  | dependency (d : Dependency)
  | folder (path : String)
deriving DecidableEq

/-- Reads the entry that starts with the token `t`, which is not `}`.
An entry without its operand, or with one that cannot be read, yields
nothing. -/
def readEntry (stop : Nat) (t : Token) (ts : List Token) :
    Read (Option Entry) :=
  match t.kind with
  | .depends =>
    let operand := expect stop .name ts
    let ending := finish stop operand.rest
    ⟨operand.value.map fun name => .dependency ⟨name.text, name.span⟩,
      operand.issues ++ ending.issues, ending.rest⟩
  | .source =>
    let operand := expect stop .quoted ts
    let ending := finish stop operand.rest
    match operand.value with
    | none => ⟨none, operand.issues ++ ending.issues, ending.rest⟩
    | some literal =>
      match unquote literal.text with
      | .ok path => ⟨some (.folder path), ending.issues, ending.rest⟩
      | .error cause =>
        ⟨none, (Issue.folder cause).diagnose literal.span :: ending.issues,
          ending.rest⟩
  | kind =>
    ⟨none, [(Issue.notAnEntry kind).diagnose t.span], recover (t :: ts)⟩

-- ================================================== items of a document

/-- What stands in an ordinary document. -/
inductive Item where
  | definition (d : Definition)
  | reference (r : Reference)
deriving DecidableEq

/-- Reads `duration QUOTED` behind `=`. What cannot be read is skipped
to the end of the statement and leaves no value. -/
def readValue (stop : Nat) (ts : List Token) : Read (Option Duration) :=
  let word := expect stop .duration ts
  match word.value with
  | none => ⟨none, word.issues, skipToEnd word.rest⟩
  | some _ =>
    let operand := expect stop .quoted word.rest
    match operand.value with
    | none => ⟨none, operand.issues, skipToEnd operand.rest⟩
    | some literal =>
      match (unquote literal.text).bind Duration.parse with
      | .ok value => ⟨some value, [], operand.rest⟩
      | .error cause =>
        ⟨none, [(Issue.duration cause).diagnose literal.span], operand.rest⟩

/-- Reads a definition behind its word, up to its `;`. -/
def readDefinition (stop : Nat) (ts : List Token) : Read (Option Definition) :=
  let operand := expect stop .name ts
  match operand.value with
  | none => ⟨none, operand.issues, operand.rest⟩
  | some name =>
    match operand.rest with
    | [] => ⟨some ⟨name.text, name.span, none⟩, [], []⟩
    | sign :: ts =>
      if sign.kind = .equals then
        let value := readValue stop ts
        ⟨some ⟨name.text, name.span, value.value⟩, value.issues,
          value.rest⟩
      else ⟨some ⟨name.text, name.span, none⟩, [], sign :: ts⟩

/-- Reads the item that starts with the token `t`. -/
def readItem (stop : Nat) (t : Token) (ts : List Token) : Read (Option Item) :=
  match t.kind with
  | .definition =>
    let operand := readDefinition stop ts
    let ending := finish stop operand.rest
    ⟨operand.value.map .definition, operand.issues ++ ending.issues,
      ending.rest⟩
  | .reference =>
    let operand := expect stop .name ts
    let ending := finish stop operand.rest
    ⟨operand.value.map fun name =>
        .reference ⟨name.text, name.span, none⟩,
      operand.issues ++ ending.issues, ending.rest⟩
  | kind =>
    ⟨none, [(Issue.notAnItem kind).diagnose t.span],
      if kind = .closeBrace then ts else recover (t :: ts)⟩

-- ===================================================== tokens run short

/-- Skipping adds no tokens. -/
theorem length_skipToEnd (ts : List Token) :
    (skipToEnd ts).length ≤ ts.length := by
  fun_induction skipToEnd ts <;> simp_all
  omega

theorem length_recover (ts : List Token) :
    (recover ts).length ≤ ts.length := by
  fun_induction recover ts <;> simp_all
  omega

/-- Recovery moves on from anything but a closing brace. -/
theorem length_recover_cons {t : Token} (h : t.kind ≠ .closeBrace)
    (ts : List Token) : (recover (t :: ts)).length ≤ ts.length := by
  unfold recover
  split
  · exact Nat.le_refl _
  · exact length_recover ts

/-- Expecting a token takes one at most. -/
theorem length_expect (stop : Nat) (kind : TokenKind) (ts : List Token) :
    (expect stop kind ts).rest.length ≤ ts.length := by
  unfold expect
  split
  · exact Nat.le_refl _
  · split <;> simp

theorem length_finish (stop : Nat) (ts : List Token) :
    (finish stop ts).rest.length ≤ ts.length := by
  unfold finish
  have h := length_expect stop .semicolon ts
  dsimp only
  split
  · exact h
  · exact Nat.le_trans (length_recover _) h

/-- Reading an entry moves on, so reading them comes to an end. -/
theorem length_readEntry (stop : Nat) {t : Token} (h : t.kind ≠ .closeBrace)
    (ts : List Token) : (readEntry stop t ts).rest.length ≤ ts.length := by
  have hf (kind : TokenKind) :
      (finish stop (expect stop kind ts).rest).rest.length ≤ ts.length :=
    Nat.le_trans (length_finish _ _) (length_expect _ _ _)
  unfold readEntry
  split
  · exact hf .name
  · dsimp only
    split
    · exact hf .quoted
    · split <;> exact hf .quoted
  · exact length_recover_cons h ts

theorem length_readValue (stop : Nat) (ts : List Token) :
    (readValue stop ts).rest.length ≤ ts.length := by
  have hw := length_expect stop .duration ts
  have hq := Nat.le_trans
    (length_expect stop .quoted (expect stop .duration ts).rest) hw
  unfold readValue
  dsimp only
  split
  · exact Nat.le_trans (length_skipToEnd _) hw
  · split
    · exact Nat.le_trans (length_skipToEnd _) hq
    · split <;> exact hq

theorem length_readDefinition (stop : Nat) (ts : List Token) :
    (readDefinition stop ts).rest.length ≤ ts.length := by
  have hn := length_expect stop .name ts
  unfold readDefinition
  dsimp only
  split
  · exact hn
  · split
    · simp
    · next heq =>
      rw [heq, List.length_cons] at hn
      split
      · exact Nat.le_trans (length_readValue _ _) (Nat.le_of_succ_le hn)
      · simpa using hn

/-- The rest of an item is no longer than what stood behind its first
token. -/
theorem length_readItem (stop : Nat) (t : Token) (ts : List Token) :
    (readItem stop t ts).rest.length ≤ ts.length := by
  unfold readItem
  split
  · exact Nat.le_trans (length_finish _ _) (length_readDefinition _ _)
  · exact Nat.le_trans (length_finish _ _) (length_expect _ _ _)
  · dsimp only
    split
    · exact Nat.le_refl _
    · next h => exact length_recover_cons h ts

-- ================================================================ files

/-- Reads entries up to the `}` that closes the descriptor. -/
def readEntries (stop : Nat) : (ts : List Token) → Read (List Entry)
  | [] => ⟨[], [Issue.unclosed.diagnose (.empty stop)], []⟩
  | t :: ts =>
    if _h : t.kind = .closeBrace then ⟨[], [], ts⟩
    else
      let entry := readEntry stop t ts
      let more := readEntries stop entry.rest
      ⟨entry.value.toList ++ more.value, entry.issues ++ more.issues,
        more.rest⟩
termination_by ts => ts.length
decreasing_by exact Nat.lt_succ_of_le (length_readEntry stop _h ts)

/-- Reads items to the end of the text. -/
def readItems (stop : Nat) : (ts : List Token) → List Item × List Diagnostic
  | [] => ([], [])
  | t :: ts =>
    let item := readItem stop t ts
    let more := readItems stop item.rest
    (item.value.toList ++ more.1, item.issues ++ more.2)
termination_by ts => ts.length
decreasing_by exact Nat.lt_succ_of_le (length_readItem stop t ts)

/-- The body that items make up. -/
def bodyOf (items : List Item) : Body where
  definitions := items.filterMap fun
    | .definition d => some d
    | .reference _ => none
  references := items.filterMap fun
    | .definition _ => none
    | .reference r => some r

/-- The descriptor that entries make up. -/
def descriptorOf (kind : ProjectKind) (name : String) (span : Span)
    (entries : List Entry) : Descriptor where
  kind := kind
  name := name
  span := span
  dependencies := entries.filterMap fun
    | .dependency d => some d
    | .folder _ => none
  folders := entries.filterMap fun
    | .dependency _ => none
    | .folder path => some path

/-- Reads a descriptor behind its word `t`. Without an opening brace it
has no entries. -/
def readDescriptor (stop : Nat) (kind : ProjectKind) (t : Token)
    (ts : List Token) : Read Descriptor :=
  let operand := expect stop .name ts
  let (name, span) := match operand.value with
    | some name => (name.text, name.span)
    | none => ("", t.span)
  let opening := expect stop .openBrace operand.rest
  match opening.value with
  | none =>
    ⟨descriptorOf kind name span [], operand.issues ++ opening.issues,
      opening.rest⟩
  | some _ =>
    let entries := readEntries stop opening.rest
    ⟨descriptorOf kind name span entries.value,
      operand.issues ++ opening.issues ++ entries.issues, entries.rest⟩

/-- The kind of project that a word announces. -/
def projectKind? : TokenKind → Option ProjectKind
  | .project => some .project
  | .profile => some .profile
  | .tool => some .tool
  | _ => none

end Reader

namespace Content

open Reader

/-- Reads a file from its tokens. Whatever follows a descriptor is
reported token by token. -/
def ofTokens (stop : Nat) (ts : List Token) : Content × List Diagnostic :=
  match ts with
  | [] => (.ordinary (bodyOf []), [])
  | t :: rest =>
    match projectKind? t.kind with
    | some kind =>
      let d := readDescriptor stop kind t rest
      (.descriptor d.value,
        d.issues ++ d.rest.map fun t =>
          (Issue.afterDescriptor t.kind).diagnose t.span)
    | none =>
      let items := readItems stop ts
      (.ordinary (bodyOf items.1), items.2)

/-- Reads a document from its text. A text that is too long for offsets
into it is not read at all: it leaves an empty document and is reported
as a whole. -/
def ofText (text : String) : Content × List Diagnostic :=
  if text.utf8ByteSize < Span.limit then
    ofTokens text.utf8ByteSize (Token.significant text)
  else
    (.ordinary (bodyOf []),
      [(Issue.tooLong text.utf8ByteSize).diagnose (.empty 0)])

/-- A text is read as its tokens are, up to the last offset. -/
theorem ofText_of_lt {text : String}
    (h : text.utf8ByteSize < Span.limit) :
    ofText text
      = ofTokens text.utf8ByteSize (Token.significant text) := by
  rw [ofText, if_pos h]

end Content

end Purview

/-
The grammar of documents, and that reading accepts exactly its
sentences. The grammar is stated over tokens, in three layers: a single
statement, statements one behind the other, a file. A derivation says
what the sentence means as well as that it is one, so a sentence that is
read without an issue has to mean what the derivation says.

Reading goes on behind every issue, but it never takes one back: a text
is read in silence only if each statement on the way is. So both
directions are settled statement by statement. What the grammar derives
is read as what it derives, whatever follows (`readEntry_of_derived`,
`readItem_of_derived`), and a statement read in silence has a derivation
(`derived_of_readEntry`, `derived_of_readItem`); the loops over the
statements only put these together.
-/
import Purview.Content.Reader

namespace Purview

-- ========================================================= the grammar

namespace Grammar

/-- A single entry of a descriptor. -/
inductive Entry : List Token → Reader.Entry → Prop
  /-- `depends NAME ;` -/
  | dependency {word name mark : Token}
      (form : [word, name, mark].map Token.kind
        = [.depends, .name, .semicolon]) :
      Entry [word, name, mark] (.dependency ⟨name.text, name.span⟩)
  /-- `source QUOTED ;` where the literal stands for a path. -/
  | folder {word literal mark : Token} {path : String}
      (form : [word, literal, mark].map Token.kind
        = [.source, .quoted, .semicolon])
      (readable : unquote literal.text = .ok path) :
      Entry [word, literal, mark] (.folder path)

/-- A single item of an ordinary document. -/
inductive Item : List Token → Reader.Item → Prop
  /-- `def NAME ;` -/
  | bare {word name mark : Token}
      (form : [word, name, mark].map Token.kind
        = [.definition, .name, .semicolon]) :
      Item [word, name, mark] (.definition ⟨name.text, name.span, none⟩)
  /-- `def NAME = duration QUOTED ;` where the literal stands for the
  text of a duration. -/
  | valued {word name sign unit literal mark : Token} {text : String}
      {value : Duration}
      (form : [word, name, sign, unit, literal, mark].map Token.kind
        = [.definition, .name, .equals, .duration, .quoted, .semicolon])
      (readable : unquote literal.text = .ok text)
      (measured : Duration.parse text = .ok value) :
      Item [word, name, sign, unit, literal, mark]
        (.definition ⟨name.text, name.span, some value⟩)
  /-- `ref NAME ;` -/
  | reference {word name mark : Token}
      (form : [word, name, mark].map Token.kind
        = [.reference, .name, .semicolon]) :
      Item [word, name, mark] (.reference ⟨name.text, name.span, none⟩)

/-- Any number of entries, with the dependencies and the folders among
them in order. -/
inductive Entries : List Token → List Dependency → List String → Prop
  | none : Entries [] [] []
  | dependency {ts us : List Token} {d : Dependency}
      {ds : List Dependency} {fs : List String}
      (first : Entry ts (.dependency d)) (rest : Entries us ds fs) :
      Entries (ts ++ us) (d :: ds) fs
  | folder {ts us : List Token} {f : String} {ds : List Dependency}
      {fs : List String}
      (first : Entry ts (.folder f)) (rest : Entries us ds fs) :
      Entries (ts ++ us) ds (f :: fs)

/-- Any number of items, with the definitions and the references among
them in order. -/
inductive Items : List Token → List Definition → List Reference → Prop
  | none : Items [] [] []
  | definition {ts us : List Token} {d : Definition}
      {ds : List Definition} {rs : List Reference}
      (first : Item ts (.definition d)) (rest : Items us ds rs) :
      Items (ts ++ us) (d :: ds) rs
  | reference {ts us : List Token} {r : Reference}
      {ds : List Definition} {rs : List Reference}
      (first : Item ts (.reference r)) (rest : Items us ds rs) :
      Items (ts ++ us) ds (r :: rs)

/-- The word that announces a kind of project. -/
def announcing : ProjectKind → TokenKind
  | .project => .project
  | .profile => .profile
  | .tool => .tool

/-- A file and what it says: a descriptor
`(project | profile | tool) NAME { entry* }`, or items. -/
inductive File : List Token → Content → Prop
  | descriptor {word name opening closing : Token} {ts : List Token}
      {kind : ProjectKind} {ds : List Dependency} {fs : List String}
      (form : [word, name, opening, closing].map Token.kind
        = [announcing kind, .name, .openBrace, .closeBrace])
      (entries : Entries ts ds fs) :
      File (word :: name :: opening :: (ts ++ [closing]))
        (.descriptor ⟨kind, name.text, name.span, ds, fs⟩)
  | ordinary {ts : List Token} {ds : List Definition}
      {rs : List Reference} (items : Items ts ds rs) :
      File ts (.ordinary ⟨ds, rs⟩)

end Grammar

namespace Reader

variable (stop : Nat) {t : Token} {ts used rest : List Token}

-- ======================================================= single tokens

theorem finish_of_semicolon (h : t.kind = .semicolon) (ts : List Token) :
    finish stop (t :: ts) = ⟨(), [], ts⟩ := by
  unfold finish
  rw [expect_of_kind stop h]
  rfl

theorem semicolon_of_finish (h : (finish stop ts).issues = []) :
    ∃ mark rest, ts = mark :: rest ∧ mark.kind = .semicolon :=
  (expect_cases stop .semicolon ts).resolve_right fun hissue => hissue.2 h

-- ============================================================= entries

/-- A derived entry is read as what it says, whatever follows. -/
theorem readEntry_of_derived {e : Entry} (h : Grammar.Entry used e)
    (hused : t :: ts = used ++ rest) :
    readEntry stop t ts = ⟨some e, [], rest⟩ := by
  cases h with
  | dependency form =>
    obtain ⟨hword, hname, hmark⟩ := by simpa using form
    obtain ⟨rfl, rfl⟩ := by simpa using hused
    unfold readEntry
    simp only [hword, expect_of_kind stop hname,
      finish_of_semicolon stop hmark]
    rfl
  | folder form readable =>
    obtain ⟨hword, hliteral, hmark⟩ := by simpa using form
    obtain ⟨rfl, rfl⟩ := by simpa using hused
    unfold readEntry
    simp only [hword, expect_of_kind stop hliteral,
      finish_of_semicolon stop hmark, readable]

/-- A name and its `;` stand where they are read in silence. -/
theorem named_of_silent (h : (expect stop .name ts).issues
      ++ (finish stop (expect stop .name ts).rest).issues = []) :
    ∃ name mark rest, ts = name :: mark :: rest
      ∧ name.kind = .name ∧ mark.kind = .semicolon := by
  obtain ⟨hoperand, hending⟩ := List.append_eq_nil_iff.1 h
  rcases expect_cases stop .name ts with ⟨name, ts, rfl, hname⟩ | hissue
  · rw [expect_of_kind stop hname] at hending
    obtain ⟨mark, rest, rfl, hmark⟩ := semicolon_of_finish stop hending
    exact ⟨name, mark, rest, rfl, hname, hmark⟩
  · exact absurd hoperand hissue.2

/-- An entry that is read in silence is derived. -/
theorem derived_of_readEntry (h : (readEntry stop t ts).issues = []) :
    ∃ used e rest, Grammar.Entry used e ∧ t :: ts = used ++ rest := by
  unfold readEntry at h
  split at h
  · next hword =>
    obtain ⟨name, mark, rest, rfl, hname, hmark⟩ := named_of_silent stop h
    exact ⟨[t, name, mark], _, rest,
      .dependency (by simp [hword, hname, hmark]), rfl⟩
  · next hword =>
    rcases expect_cases stop .quoted ts with
      ⟨literal, ts, rfl, hliteral⟩ | ⟨hnone, hissue⟩
    · simp only [expect_of_kind stop hliteral] at h
      split at h
      · next path readable =>
        obtain ⟨mark, rest, rfl, hmark⟩ := semicolon_of_finish stop h
        exact ⟨[t, literal, mark], _, rest,
          .folder (by simp [hword, hliteral, hmark]) readable, rfl⟩
      · cases h
    · simp only [hnone] at h
      exact absurd (List.append_eq_nil_iff.1 h).1 hissue
  · cases h

/-- A derived entry is taken off the front of the entries. -/
theorem readEntries_of_derived {e : Entry} (h : Grammar.Entry used e)
    (rest : List Token) :
    readEntries stop (used ++ rest)
      = ⟨e :: (readEntries stop rest).value, (readEntries stop rest).issues,
          (readEntries stop rest).rest⟩ := by
  obtain ⟨word, tail, rfl, hword⟩ :
      ∃ word tail, used = word :: tail ∧ word.kind ≠ .closeBrace := by
    cases h with
    | dependency form | folder form =>
      exact ⟨_, _, rfl, by simp_all⟩
  have hread : readEntry stop word (tail ++ rest) = ⟨some e, [], rest⟩ :=
    readEntry_of_derived stop h rfl
  rw [List.cons_append, readEntries, dif_neg hword, hread]
  rfl

/-- Derived entries are read up to the brace that closes them, and say
what the derivation says. -/
theorem descriptorOf_readEntries {ds : List Dependency} {fs : List String}
    (h : Grammar.Entries ts ds fs) {closing : Token}
    (hclosing : closing.kind = .closeBrace) (rest : List Token) :
    ∃ es, readEntries stop (ts ++ closing :: rest) = ⟨es, [], rest⟩
      ∧ ∀ kind name span, descriptorOf kind name span es
        = ⟨kind, name, span, ds, fs⟩ := by
  induction h with
  | none =>
    refine ⟨[], ?_, fun _ _ _ => rfl⟩
    rw [List.nil_append, readEntries, dif_pos hclosing]
  | @dependency _ _ d _ _ first _ ih =>
    obtain ⟨es, hes, hmeans⟩ := ih
    refine ⟨.dependency d :: es, ?_, fun kind name span => ?_⟩
    · rw [List.append_assoc, readEntries_of_derived stop first, hes]
    · show { descriptorOf kind name span es with
        dependencies := d :: (descriptorOf kind name span es).dependencies }
          = _
      rw [hmeans]
  | @folder _ _ f _ _ first _ ih =>
    obtain ⟨es, hes, hmeans⟩ := ih
    refine ⟨.folder f :: es, ?_, fun kind name span => ?_⟩
    · rw [List.append_assoc, readEntries_of_derived stop first, hes]
    · show { descriptorOf kind name span es with
        folders := f :: (descriptorOf kind name span es).folders } = _
      rw [hmeans]

/-- Entries that are read in silence are derived, and a brace closes
them. -/
theorem derived_of_readEntries (h : (readEntries stop ts).issues = []) :
    ∃ used ds fs closing, Grammar.Entries used ds fs
      ∧ closing.kind = .closeBrace
      ∧ ts = used ++ closing :: (readEntries stop ts).rest := by
  fun_induction readEntries stop ts with
  | case1 => cases h
  | case2 t ts hclosing => exact ⟨[], [], [], t, .none, hclosing, rfl⟩
  | case3 t ts hopen entry more ih =>
    obtain ⟨hentry, hmore⟩ := List.append_eq_nil_iff.1 h
    obtain ⟨used, e, rest, hderived, hused⟩ :=
      derived_of_readEntry stop hentry
    have hrest : entry.rest = rest :=
      congrArg Read.rest (readEntry_of_derived stop hderived hused)
    obtain ⟨us, ds, fs, closing, hentries, hclosing, hus⟩ := ih hmore
    have hts : t :: ts = used ++ us ++ closing :: more.rest := by
      rw [hused, List.append_assoc, ← hrest]
      exact congrArg (used ++ ·) hus
    cases e with
    | dependency d =>
      exact ⟨_, d :: ds, fs, closing, .dependency hderived hentries,
        hclosing, hts⟩
    | folder f =>
      exact ⟨_, ds, f :: fs, closing, .folder hderived hentries,
        hclosing, hts⟩

-- =============================================================== items

/-- A derived item is read as what it says, whatever follows. -/
theorem readItem_of_derived {i : Item} (h : Grammar.Item used i)
    (hused : t :: ts = used ++ rest) :
    readItem stop t ts = ⟨some i, [], rest⟩ := by
  cases h with
  | bare form =>
    obtain ⟨hword, hname, hmark⟩ := by simpa using form
    obtain ⟨rfl, rfl⟩ := by simpa using hused
    unfold readItem readDefinition
    simp only [hword, expect_of_kind stop hname, hmark, reduceCtorEq,
      if_false, finish_of_semicolon stop hmark]
    rfl
  | valued form readable measured =>
    obtain ⟨hword, hname, hsign, hunit, hliteral, hmark⟩ := by
      simpa using form
    obtain ⟨rfl, rfl⟩ := by simpa using hused
    unfold readItem readDefinition readValue
    simp only [hword, expect_of_kind stop hname, hsign, if_true,
      expect_of_kind stop hunit, expect_of_kind stop hliteral, readable,
      Except.bind, measured, finish_of_semicolon stop hmark]
    rfl
  | reference form =>
    obtain ⟨hword, hname, hmark⟩ := by simpa using form
    obtain ⟨rfl, rfl⟩ := by simpa using hused
    unfold readItem
    simp only [hword, expect_of_kind stop hname,
      finish_of_semicolon stop hmark]
    rfl

/-- A value that is read in silence is a duration behind its word. -/
theorem derived_of_readValue (h : (readValue stop ts).issues = []) :
    ∃ unit literal rest text value, ts = unit :: literal :: rest
      ∧ unit.kind = .duration ∧ literal.kind = .quoted
      ∧ unquote literal.text = .ok text
      ∧ Duration.parse text = .ok value
      ∧ (readValue stop ts).rest = rest := by
  unfold readValue at h ⊢
  rcases expect_cases stop .duration ts with
    ⟨unit, ts, rfl, hunit⟩ | ⟨hnone, hissue⟩
  · simp only [expect_of_kind stop hunit] at h ⊢
    rcases expect_cases stop .quoted ts with
      ⟨literal, rest, rfl, hliteral⟩ | ⟨hnone, hissue⟩
    · simp only [expect_of_kind stop hliteral] at h ⊢
      split at h
      · next value hvalue =>
        cases readable : unquote literal.text with
        | error cause => rw [readable] at hvalue; cases hvalue
        | ok text =>
          rw [readable] at hvalue
          exact ⟨unit, literal, rest, text, value, rfl, hunit, hliteral,
            readable, hvalue, rfl⟩
      · cases h
    · simp only [hnone] at h
      exact absurd h hissue
  · simp only [hnone] at h
    exact absurd h hissue

/-- A definition that is read in silence up to its `;` is derived. -/
theorem derived_of_readDefinition (hword : t.kind = .definition)
    (h : (readDefinition stop ts).issues = []) {mark : Token}
    (hrest : (readDefinition stop ts).rest = mark :: rest)
    (hmark : mark.kind = .semicolon) :
    ∃ used d, Grammar.Item used (.definition d)
      ∧ t :: ts = used ++ rest := by
  unfold readDefinition at h hrest
  rcases expect_cases stop .name ts with
    ⟨name, ts, rfl, hname⟩ | ⟨hnone, hissue⟩
  · simp only [expect_of_kind stop hname] at h hrest
    split at h
    · cases hrest
    · next sign ts =>
      split at h
      · next hsign =>
        obtain ⟨unit, literal, us, text, value, rfl, hunit, hliteral,
          readable, measured, hus⟩ := derived_of_readValue stop h
        simp only [hsign, if_true, hus] at hrest
        subst hrest
        exact ⟨[t, name, sign, unit, literal, mark], _,
          .valued (by simp [*]) readable measured, rfl⟩
      · next hsign =>
        simp only [hsign, if_false] at hrest
        obtain ⟨rfl, rfl⟩ := List.cons.inj hrest
        exact ⟨[t, name, sign], _, .bare (by simp [*]), rfl⟩
  · simp only [hnone] at h
    exact absurd h hissue

/-- An item that is read in silence is derived. -/
theorem derived_of_readItem (h : (readItem stop t ts).issues = []) :
    ∃ used i rest, Grammar.Item used i ∧ t :: ts = used ++ rest := by
  unfold readItem at h
  split at h
  · next hword =>
    obtain ⟨hoperand, hending⟩ := List.append_eq_nil_iff.1 h
    obtain ⟨mark, rest, hrest, hmark⟩ := semicolon_of_finish stop hending
    obtain ⟨used, d, hderived, hused⟩ :=
      derived_of_readDefinition stop hword hoperand hrest hmark
    exact ⟨used, _, rest, hderived, hused⟩
  · next hword =>
    obtain ⟨name, mark, rest, rfl, hname, hmark⟩ := named_of_silent stop h
    exact ⟨[t, name, mark], _, rest,
      .reference (by simp [hword, hname, hmark]), rfl⟩
  · cases h

/-- A derived item is taken off the front of the items. -/
theorem readItems_of_derived {i : Item} (h : Grammar.Item used i)
    (rest : List Token) :
    readItems stop (used ++ rest)
      = (i :: (readItems stop rest).1, (readItems stop rest).2) := by
  obtain ⟨word, tail, rfl⟩ : ∃ word tail, used = word :: tail := by
    cases h <;> exact ⟨_, _, rfl⟩
  have hread : readItem stop word (tail ++ rest) = ⟨some i, [], rest⟩ :=
    readItem_of_derived stop h rfl
  rw [List.cons_append, readItems, hread]
  rfl

/-- Derived items are read to the end, and say what the derivation
says. -/
theorem bodyOf_readItems {ds : List Definition} {rs : List Reference}
    (h : Grammar.Items ts ds rs) :
    bodyOf (readItems stop ts).1 = ⟨ds, rs⟩
      ∧ (readItems stop ts).2 = [] := by
  induction h with
  | none => rw [readItems]; exact ⟨rfl, rfl⟩
  | @definition _ us d _ _ first _ ih =>
    rw [readItems_of_derived stop first]
    refine ⟨?_, ih.2⟩
    show { bodyOf (readItems stop us).1 with
      definitions := d :: (bodyOf (readItems stop us).1).definitions } = _
    rw [ih.1]
  | @reference _ us r _ _ first _ ih =>
    rw [readItems_of_derived stop first]
    refine ⟨?_, ih.2⟩
    show { bodyOf (readItems stop us).1 with
      references := r :: (bodyOf (readItems stop us).1).references } = _
    rw [ih.1]

/-- Items that are read in silence are derived. -/
theorem derived_of_readItems (h : (readItems stop ts).2 = []) :
    ∃ ds rs, Grammar.Items ts ds rs := by
  fun_induction readItems stop ts with
  | case1 => exact ⟨[], [], .none⟩
  | case2 t ts item more ih =>
    obtain ⟨hitem, hmore⟩ := List.append_eq_nil_iff.1 h
    obtain ⟨used, i, rest, hderived, hused⟩ :=
      derived_of_readItem stop hitem
    have hrest : item.rest = rest :=
      congrArg Read.rest (readItem_of_derived stop hderived hused)
    obtain ⟨ds, rs, hitems⟩ := ih hmore
    rw [hused, ← hrest]
    cases i with
    | definition d => exact ⟨_, _, .definition hderived hitems⟩
    | reference r => exact ⟨_, _, .reference hderived hitems⟩

-- =============================================================== files

theorem projectKind?_eq_some {k : TokenKind} {kind : ProjectKind} :
    projectKind? k = some kind ↔ k = Grammar.announcing kind := by
  cases k <;> cases kind <;> simp [projectKind?, Grammar.announcing]

/-- No item starts like a descriptor. -/
theorem projectKind?_of_items {ds : List Definition} {rs : List Reference}
    (h : Grammar.Items ts ds rs) :
    ∀ t ∈ ts.head?, projectKind? t.kind = none := by
  cases h with
  | none => simp
  | definition first rest | reference first rest =>
    cases first <;> simp_all [projectKind?]

/-- A descriptor that is read in silence is derived. -/
theorem derived_of_readDescriptor {kind : ProjectKind}
    (hword : t.kind = Grammar.announcing kind)
    (h : (readDescriptor stop kind t ts).issues = [])
    (hrest : (readDescriptor stop kind t ts).rest = []) :
    ∃ c, Grammar.File (t :: ts) c := by
  unfold readDescriptor at h hrest
  rcases expect_cases stop .name ts with
    ⟨name, ts, rfl, hname⟩ | ⟨hnone, hissue⟩
  · simp only [expect_of_kind stop hname, List.nil_append] at h hrest
    rcases expect_cases stop .openBrace ts with
      ⟨opening, ts, rfl, hopening⟩ | ⟨hnone, hissue⟩
    · simp only [expect_of_kind stop hopening] at h hrest
      obtain ⟨us, ds, fs, closing, hentries, hclosing, hts⟩ :=
        derived_of_readEntries stop h
      rw [hts, hrest]
      exact ⟨.descriptor ⟨kind, name.text, name.span, ds, fs⟩,
        .descriptor (by simp [*]) hentries⟩
    · simp only [hnone] at h
      exact absurd h hissue
  · simp only [List.append_assoc] at h
    split at h
    · exact absurd (List.append_eq_nil_iff.1 h).1 hissue
    · exact absurd (List.append_eq_nil_iff.1 h).1 hissue

end Reader

namespace Content

open Reader

variable (stop : Nat) {ts : List Token}

/-- Sentences are read as what they say. -/
theorem ofTokens_of_derived {c : Content} (h : Grammar.File ts c) :
    ofTokens stop ts = (c, []) := by
  cases h with
  | @descriptor word name opening closing ts kind ds fs form entries =>
    obtain ⟨hword, hname, hopening, hclosing⟩ := by simpa using form
    obtain ⟨es, hes, hmeans⟩ :=
      descriptorOf_readEntries stop entries hclosing []
    unfold ofTokens readDescriptor
    simp only [projectKind?_eq_some.2 hword, expect_of_kind stop hname,
      expect_of_kind stop hopening, hes, hmeans]
    rfl
  | ordinary items =>
    obtain ⟨hbody, hsilent⟩ := bodyOf_readItems stop items
    cases ts with
    | nil =>
      rw [readItems] at hbody
      rw [ofTokens, hbody]
    | cons t rest =>
      unfold ofTokens
      simp only [projectKind?_of_items items t rfl, hbody, hsilent]

/-- What is read in silence is a sentence. -/
theorem derived_of_ofTokens (h : (ofTokens stop ts).2 = []) :
    ∃ c, Grammar.File ts c := by
  unfold ofTokens at h
  split at h
  · exact ⟨_, .ordinary .none⟩
  · next t rest =>
    split at h
    · next kind hkind =>
      obtain ⟨hsilent, hrest⟩ := List.append_eq_nil_iff.1 h
      exact derived_of_readDescriptor stop (projectKind?_eq_some.1 hkind)
        hsilent (List.map_eq_nil_iff.1 hrest)
    · obtain ⟨ds, rs, hitems⟩ := derived_of_readItems stop h
      exact ⟨_, .ordinary hitems⟩

/-- A text is read without a diagnostic exactly if its tokens are a
sentence of the grammar, and then as what the sentence says. -/
theorem ofText_grammar {text : String}
    (h : text.utf8ByteSize < Span.limit) :
    ((ofText text).2 = []
        ↔ ∃ c, Grammar.File (Token.significant text) c)
      ∧ ∀ c, Grammar.File (Token.significant text) c
        ↔ ofText text = (c, []) := by
  rw [ofText_of_lt h]
  have hread : ∀ c, Grammar.File (Token.significant text) c →
      ofTokens text.utf8ByteSize (Token.significant text) = (c, []) :=
    fun c => ofTokens_of_derived _
  refine ⟨⟨derived_of_ofTokens _, ?_⟩, fun c => ⟨hread c, fun h => ?_⟩⟩
  · rintro ⟨c, hc⟩
    rw [hread c hc]
  · obtain ⟨c', hc'⟩ : ∃ c', Grammar.File (Token.significant text) c' :=
      derived_of_ofTokens _ (congrArg Prod.snd h)
    obtain rfl : c' = c := congrArg Prod.fst ((hread c' hc').symm.trans h)
    exact hc'

/-- A definition with a duration, and a reference to it. -/
theorem ofText_grammar_valued :
    let text := "def T = duration \"PT1S\"; ref T;"
    let said := Content.ordinary
      ⟨[⟨"T", ⟨4, 5⟩, some ⟨1000000000, by decide⟩⟩],
        [⟨"T", ⟨29, 30⟩, none⟩]⟩
    text.utf8ByteSize < Span.limit
      ∧ ((ofText text).2 = []
        ↔ ∃ c, Grammar.File (Token.significant text) c)
      ∧ (Grammar.File (Token.significant text) said
        ↔ ofText text = (said, []))
      ∧ Grammar.File (Token.significant text) said := by
  intro text said
  have h : text.utf8ByteSize < Span.limit := by decide +kernel
  have hread : ofText text = (said, []) := by decide +kernel
  obtain ⟨hsilent, hmeans⟩ := ofText_grammar h
  exact ⟨h, hsilent, hmeans said, (hmeans said).2 hread⟩

end Content

end Purview

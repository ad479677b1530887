/-
The way that a reader goes along its tokens. What a reader does is no
more than to go along them: it takes up a name where it stands on one,
reports where it stands, and leaves tokens behind. A `Trail` is such a
way with the names and the reports of it, in order, and every reader
goes along one, on whatever tokens it is let loose
(`Reader.trail_readEntry`, `Reader.trail_readItem`). Ways are put end to
end (`Reader.Trail.trans`), so a reader has the trail that its parts
make up and the many ways out of an error need no thought of their own.

What there is to say of names and reports is said of ways and not of
reading: a name is that of a token on the way (`Reader.Trail.mentions`),
a report is an issue at a token or at the end (`Reader.Trail.reports`),
and no way leads back (`Reader.Trail.suffix`).
-/
import Purview.Content.Reader

namespace Purview

-- ============================================================ mentions

/-- A name, and where it stands. -/
structure Mention where
  name : String
  span : Span

/-- A dependency mentions the project it is on. -/
def Dependency.mention (d : Dependency) : Mention := ⟨d.name, d.span⟩

/-- A definition mentions the name it gives. -/
def Definition.mention (d : Definition) : Mention := ⟨d.name, d.span⟩

/-- A reference mentions the name it looks for. -/
def Reference.mention (r : Reference) : Mention := ⟨r.name, r.span⟩

namespace Reader

/-- The mention of the name that a token is. -/
def mention (t : Token) : Mention := ⟨t.text, t.span⟩

/-- Of the entries of a descriptor, dependencies mention a name. -/
def Entry.mention? : Entry → Option Mention
  | .dependency d => some d.mention
  | .folder _ => none

/-- Every item of an ordinary document mentions one. -/
def Item.mention : Item → Mention
  | .definition d => d.mention
  | .reference r => r.mention

-- ================================================================ ways

/-- Where reading stands: at the next token, or at the end of the text. -/
def place (stop : Nat) : List Token → Span
  | [] => .empty stop
  | t :: _ => t.span

/-- A way through tokens, with the names taken up and the reports made
on it. A report is made where the way has come to. -/
inductive Trail (stop : Nat) :
    List Token → List Mention → List Diagnostic → List Token → Prop
  | stay (ts : List Token) : Trail stop ts [] [] ts
  | skip (t : Token) {ts us : List Token} {ms : List Mention}
      {ds : List Diagnostic} (way : Trail stop ts ms ds us) :
      Trail stop (t :: ts) ms ds us
  | take {t : Token} (isName : t.kind = .name) {ts us : List Token}
      {ms : List Mention} {ds : List Diagnostic}
      (way : Trail stop ts ms ds us) :
      Trail stop (t :: ts) (mention t :: ms) ds us
  | report (issue : Issue) {ts us : List Token} {ms : List Mention}
      {ds : List Diagnostic} (way : Trail stop ts ms ds us) :
      Trail stop ts ms (issue.diagnose (place stop ts) :: ds) us

namespace Trail

variable {stop : Nat} {t : Token} {ts us vs : List Token}
  {ms ns : List Mention} {ds es : List Diagnostic}

/-- Ways that follow each other are one way. -/
theorem trans (h : Trail stop ts ms ds us) (h' : Trail stop us ns es vs) :
    Trail stop ts (ms ++ ns) (ds ++ es) vs := by
  induction h with
  | stay => exact h'
  | skip t _ ih => exact .skip t (ih h')
  | take isName _ ih => exact .take isName (ih h')
  | report issue _ ih => exact .report issue (ih h')

/-- What a way leaves is the rest of the tokens that it started at. -/
theorem suffix (h : Trail stop ts ms ds us) : us <:+ ts := by
  induction h with
  | stay => exact List.suffix_rfl
  | skip t _ ih => exact ih.trans (List.suffix_cons t _)
  | take _ _ ih => exact ih.trans (List.suffix_cons _ _)
  | report _ _ ih => exact ih

/-- The names taken up are those of tokens on the way, in order. -/
theorem mentions (h : Trail stop ts ms ds us) :
    ∃ names : List Token, names.Sublist ts ∧ (∀ t ∈ names, t.kind = .name)
      ∧ ms = names.map mention := by
  induction h with
  | stay ts => exact ⟨[], List.nil_sublist _, by simp, rfl⟩
  | skip t _ ih =>
    obtain ⟨names, hsub, hnames, rfl⟩ := ih
    exact ⟨names, hsub.cons t, hnames, rfl⟩
  | @take t isName _ _ _ _ _ ih =>
    obtain ⟨names, hsub, hnames, rfl⟩ := ih
    refine ⟨t :: names, hsub.cons_cons t, fun u hu => ?_, rfl⟩
    rcases List.mem_cons.1 hu with rfl | hu
    · exact isName
    · exact hnames u hu
  | report _ _ ih => exact ih

/-- Reading stands at a token or at the end. -/
theorem place_cases (stop : Nat) (ts : List Token) :
    (∃ t ∈ ts, place stop ts = t.span) ∨ place stop ts = .empty stop := by
  cases ts with
  | nil => exact .inr rfl
  | cons t ts => exact .inl ⟨t, List.mem_cons_self, rfl⟩

/-- A report is an issue at a token on the way or at the end. -/
theorem reports (h : Trail stop ts ms ds us) {d : Diagnostic} (hd : d ∈ ds) :
    ∃ (issue : Issue) (span : Span), d = issue.diagnose span
      ∧ ((∃ t ∈ ts, span = t.span) ∨ span = .empty stop) := by
  induction h with
  | stay => cases hd
  | skip t _ ih | take _ _ ih =>
    obtain ⟨issue, span, heq, ⟨u, hu, hspan⟩ | hspan⟩ := ih hd
    · exact ⟨issue, span, heq, .inl ⟨u, List.mem_cons_of_mem _ hu, hspan⟩⟩
    · exact ⟨issue, span, heq, .inr hspan⟩
  | report issue _ ih =>
    rcases List.mem_cons.1 hd with rfl | hd
    · exact ⟨issue, _, rfl, place_cases stop _⟩
    · exact ih hd

end Trail

-- ========================================================= the readers

variable (stop : Nat) {t : Token} (ts : List Token)

theorem trail_skipToEnd : Trail stop ts [] [] (skipToEnd ts) := by
  fun_induction skipToEnd ts with
  | case1 => exact .stay _
  | case2 => exact .stay _
  | case3 t ts _ ih => exact .skip t ih

theorem trail_recover : Trail stop ts [] [] (recover ts) := by
  fun_induction recover ts with
  | case1 => exact .stay _
  | case2 t ts => exact .skip t (.stay ts)
  | case3 => exact .stay _
  | case4 t ts _ _ ih => exact .skip t ih

/-- Expecting a token takes it, or reports that it is missing where the
reader stands. -/
theorem trail_expect (kind : TokenKind) :
    Trail stop ts [] (expect stop kind ts).issues
      (expect stop kind ts).rest := by
  unfold expect
  split
  · exact .report _ (.stay _)
  · next t ts =>
    split
    · exact .skip t (.stay ts)
    · exact .report _ (.stay _)

/-- If the token is a name, the way mentions it. -/
theorem trail_expect_name :
    Trail stop ts ((expect stop .name ts).value.toList.map mention)
      (expect stop .name ts).issues (expect stop .name ts).rest := by
  unfold expect
  split
  · exact .report _ (.stay _)
  · next t ts =>
    split
    · next h => exact .take h (.stay ts)
    · exact .report _ (.stay _)

theorem trail_finish :
    Trail stop ts [] (finish stop ts).issues (finish stop ts).rest := by
  unfold finish
  dsimp only
  split
  · exact trail_expect stop ts .semicolon
  · simpa using (trail_expect stop ts .semicolon).trans (trail_recover stop _)

/-- A statement is its first word, what is read behind that, and its
end. -/
theorem Trail.finished {stop : Nat} {ts us : List Token}
    {ms : List Mention} {ds : List Diagnostic} (t : Token)
    (h : Trail stop ts ms ds us) :
    Trail stop (t :: ts) ms (ds ++ (finish stop us).issues)
      (finish stop us).rest := by
  have hway := h.trans (trail_finish stop us)
  rw [List.append_nil] at hway
  exact .skip t hway

/-- An entry mentions the project of a dependency. -/
theorem trail_readEntry (t : Token) :
    Trail stop (t :: ts)
      ((readEntry stop t ts).value.toList.filterMap Entry.mention?)
      (readEntry stop t ts).issues (readEntry stop t ts).rest := by
  unfold readEntry
  split
  · have hway := (trail_expect_name stop ts).finished t
    dsimp only
    cases hvalue : (expect stop .name ts).value with
    | none | some => rw [hvalue] at hway; exact hway
  · rcases expect_cases stop .quoted ts with
      ⟨literal, ts, rfl, hliteral⟩ | ⟨hnone, -⟩
    · simp only [expect_of_kind stop hliteral]
      refine .skip t ?_
      split
      · exact .skip literal (trail_finish stop ts)
      · exact .report _ (.skip literal (trail_finish stop ts))
    · simp only [hnone]
      exact (trail_expect stop ts .quoted).finished t
  · exact .report _ (trail_recover stop _)

theorem trail_readValue :
    Trail stop ts [] (readValue stop ts).issues (readValue stop ts).rest := by
  unfold readValue
  rcases expect_cases stop .duration ts with
    ⟨word, ts, rfl, hword⟩ | ⟨hnone, -⟩
  · simp only [expect_of_kind stop hword]
    refine .skip word ?_
    rcases expect_cases stop .quoted ts with
      ⟨literal, ts, rfl, hliteral⟩ | ⟨hnone, -⟩
    · simp only [expect_of_kind stop hliteral]
      split
      · exact .skip literal (.stay ts)
      · exact .report _ (.skip literal (.stay ts))
    · simp only [hnone]
      simpa using (trail_expect stop ts .quoted).trans (trail_skipToEnd stop _)
  · simp only [hnone]
    simpa using (trail_expect stop ts .duration).trans (trail_skipToEnd stop _)

/-- A definition mentions its name, whatever becomes of its value. -/
theorem trail_readDefinition :
    Trail stop ts
      ((readDefinition stop ts).value.toList.map Definition.mention)
      (readDefinition stop ts).issues (readDefinition stop ts).rest := by
  unfold readDefinition
  rcases expect_cases stop .name ts with ⟨name, ts, rfl, hname⟩ | ⟨hnone, -⟩
  · simp only [expect_of_kind stop hname]
    cases ts with
    | nil => exact .take hname (.stay [])
    | cons sign ts =>
      dsimp only
      split
      · exact .take hname (.skip sign (trail_readValue stop ts))
      · exact .take hname (.stay _)
  · simp only [hnone]
    exact trail_expect stop ts .name

/-- An item mentions the name it defines or refers to. -/
theorem trail_readItem (t : Token) :
    Trail stop (t :: ts) ((readItem stop t ts).value.toList.map Item.mention)
      (readItem stop t ts).issues (readItem stop t ts).rest := by
  unfold readItem
  split
  · simp only [Option.toList_map, List.map_map]
    exact (trail_readDefinition stop ts).finished t
  · simp only [Option.toList_map, List.map_map]
    exact (trail_expect_name stop ts).finished t
  · dsimp only
    split
    · exact .report _ (.skip t (.stay ts))
    · exact .report _ (trail_recover stop _)

theorem trail_readEntries :
    Trail stop ts ((readEntries stop ts).value.filterMap Entry.mention?)
      (readEntries stop ts).issues (readEntries stop ts).rest := by
  fun_induction readEntries stop ts with
  | case1 => exact .report _ (.stay [])
  | case2 t ts => exact .skip t (.stay ts)
  | case3 t ts _ entry more ih =>
    rw [List.filterMap_append]
    exact (trail_readEntry stop ts t).trans ih

theorem trail_readItems :
    Trail stop ts ((readItems stop ts).1.map Item.mention)
      (readItems stop ts).2 [] := by
  fun_induction readItems stop ts with
  | case1 => exact .stay []
  | case2 t ts item more ih =>
    rw [List.map_append]
    exact (trail_readItem stop ts t).trans ih

/-- The tokens behind a descriptor are reported one by one. -/
theorem trail_afterDescriptor :
    Trail stop ts []
      (ts.map fun t => (Issue.afterDescriptor t.kind).diagnose t.span) [] := by
  induction ts with
  | nil => exact .stay []
  | cons t ts ih => exact .report _ (.skip t ih)

/-- A descriptor has the dependencies of its entries, in their order. -/
theorem mentions_descriptorOf (kind : ProjectKind) (name : String)
    (span : Span) (es : List Entry) :
    (descriptorOf kind name span es).dependencies.map Dependency.mention
      = es.filterMap Entry.mention? := by
  induction es with
  | nil => rfl
  | cons e es ih =>
    cases e with
    | dependency d => exact congrArg (d.mention :: ·) ih
    | folder path => exact ih

/-- On the way through a descriptor its name is mentioned, and then its
dependencies are. One without a name stands at its first word. -/
theorem trail_readDescriptor (kind : ProjectKind) (t : Token) :
    let d := readDescriptor stop kind t ts
    ∃ ms, Trail stop (t :: ts) ms d.issues d.rest
      ∧ (d.value.dependencies.map Dependency.mention).Sublist ms
      ∧ (⟨d.value.name, d.value.span⟩ ∈ ms
          ∨ d.value.name = "" ∧ d.value.span = t.span) := by
  intro d
  have hentries := trail_readEntries stop
  have hbrace := fun ts => trail_expect stop ts .openBrace
  unfold d readDescriptor
  rcases expect_cases stop .name ts with ⟨name, ts, rfl, hname⟩ | ⟨hnone, -⟩
  · simp only [expect_of_kind stop hname, List.nil_append]
    rcases expect_cases stop .openBrace ts with
      ⟨opening, ts, rfl, hopening⟩ | ⟨hnone, -⟩
    · simp only [expect_of_kind stop hopening, List.nil_append,
        mentions_descriptorOf]
      exact ⟨_, .skip t (.take hname (.skip opening (hentries ts))),
        List.sublist_cons_self _ _, .inl List.mem_cons_self⟩
    · simp only [hnone]
      exact ⟨_, .skip t (.take hname (hbrace ts)),
        List.nil_sublist _, .inl List.mem_cons_self⟩
  · have hfirst := trail_expect stop ts .name
    simp only [hnone]
    rcases expect_cases stop .openBrace (expect stop .name ts).rest with
      ⟨opening, us, hus, hopening⟩ | ⟨hnone', -⟩
    · rw [hus] at hfirst
      simp only [hus, expect_of_kind stop hopening, mentions_descriptorOf,
        List.append_nil]
      exact ⟨_, .skip t (hfirst.trans (.skip opening (hentries us))),
        List.Sublist.refl _, .inr ⟨rfl, rfl⟩⟩
    · simp only [hnone']
      exact ⟨_, .skip t (hfirst.trans (hbrace _)),
        List.nil_sublist _, .inr ⟨rfl, rfl⟩⟩

theorem kind_readDescriptor (kind : ProjectKind) (t : Token) :
    (readDescriptor stop kind t ts).value.kind = kind := by
  unfold readDescriptor
  dsimp only
  split <;> rfl

end Reader

namespace Body

open Reader

/-- The definitions of a body are among its items, in their order. -/
theorem definitions_sublist (items : List Item) :
    ((bodyOf items).definitions.map Definition.mention).Sublist
      (items.map Item.mention) := by
  induction items with
  | nil => exact List.Sublist.refl _
  | cons i items ih =>
    cases i with
    | definition d => exact ih.cons_cons _
    | reference r => exact ih.cons _

theorem references_sublist (items : List Item) :
    ((bodyOf items).references.map Reference.mention).Sublist
      (items.map Item.mention) := by
  induction items with
  | nil => exact List.Sublist.refl _
  | cons i items ih =>
    cases i with
    | definition d => exact ih.cons _
    | reference r => exact ih.cons_cons _

end Body

-- ============================================================ contents

namespace Content

open Reader

/-- A content says no more than is taken up on the way through its
tokens. -/
def Draws (ts : List Token) (ms : List Mention) : Content → Prop
  | .ordinary b =>
    (b.definitions.map Definition.mention).Sublist ms
      ∧ (b.references.map Reference.mention).Sublist ms
  | .descriptor d =>
    (d.dependencies.map Dependency.mention).Sublist ms
      ∧ (⟨d.name, d.span⟩ ∈ ms
        ∨ d.name = "" ∧ ∃ word, ts.head? = some word
          ∧ projectKind? word.kind = some d.kind ∧ d.span = word.span)

/-- Whatever the tokens, reading is a way through all of them, and what
it comes to is drawn from the mentions made on it. -/
theorem trail_ofTokens (stop : Nat) (ts : List Token) :
    ∃ ms, Trail stop ts ms (ofTokens stop ts).2 []
      ∧ (ofTokens stop ts).1.Draws ts ms := by
  unfold ofTokens
  split
  · exact ⟨[], .stay [], List.nil_sublist _, List.nil_sublist _⟩
  · next t rest =>
    split
    · next kind hkind =>
      obtain ⟨ms, hway, hdependencies, hname⟩ :=
        trail_readDescriptor stop rest kind t
      refine ⟨ms, ?_, hdependencies, hname.imp_right ?_⟩
      · rw [← List.append_nil ms]
        exact hway.trans (trail_afterDescriptor stop _)
      · rintro ⟨hname, hspan⟩
        refine ⟨hname, t, rfl, ?_, hspan⟩
        rw [kind_readDescriptor]
        exact hkind
    · exact ⟨_, trail_readItems stop (t :: rest),
        Body.definitions_sublist _, Body.references_sublist _⟩

end Content

end Purview

/-
What becomes of a document that nobody disturbs. Every stage has a form,
which the text says all about but for the scope in which the document
is linked: as it has just been read (`fresh`), with its names known
(`surveyed`), and with everything done (`built`). Each phase takes a
document from the form of one stage to that of the next, and sending a
document back takes it down to the form that it had there
(`sentBack_built`), since a stage only adds to what was there before.

Between requests a document is in one of these forms, or its text is
still to be read (`Document.Ready`).
-/
import Purview.Proofs.Changes
import Purview.Proofs.Reading

namespace Purview

namespace Content

/-- What a document says once its references have been looked up. -/
def link (u : Uri) (scope : LinkScope) (c : Content) : Content :=
  c.lookedUp u (Distinct.ofList c.names) scope

@[simp] theorem descriptor?_link (u : Uri) (scope : LinkScope)
    (c : Content) : (c.link u scope).descriptor? = c.descriptor? := by
  cases c <;> rfl

/-- Forgetting the targets undoes the looking up. -/
@[simp] theorem unlink_link (u : Uri) (scope : LinkScope) (c : Content) :
    (c.link u scope).unlink = c.unlink := by
  cases c with
  | descriptor d => rfl
  | ordinary b =>
    simp [link, lookedUp, unlink, Document.linkBody, Body.unlink]

theorem unlink_unlink (c : Content) : c.unlink.unlink = c.unlink := by
  cases c with
  | descriptor x => rfl
  | ordinary b => simp [unlink, Body.unlink]

end Content

namespace Document

/-- No diagnostic outlives the way back to the very start. -/
theorem survives_changed (x : Diagnostic) : survives .changed x = false := by
  unfold survives
  cases x.origin <;> rfl

/-- Content that forgetting its targets does not change has none. -/
theorem targets_of_unlinked {d : Document}
    (h : d.content.map Content.unlink = d.content) {body : Body}
    (hbody : d.body? = some body) :
    ∀ r ∈ body.references, r.target = none := by
  obtain ⟨content, hcontent, hb⟩ := Option.bind_eq_some_iff.1 hbody
  rw [hcontent] at h
  have hsame : content.unlink = content := Option.some.inj h
  cases content with
  | descriptor x => cases hb
  | ordinary b =>
    cases hb
    have hrefs : body.unlink.references = body.references :=
      congrArg Body.references (Content.ordinary.inj hsame)
    intro r hr
    rw [← hrefs] at hr
    obtain ⟨r', -, rfl⟩ := List.mem_map.1 hr
    rfl

-- =============================================================== forms

/-- What the text of a document says. -/
def reading (d : Document) : Content := (Content.ofText d.text).1

/-- The names that the text of a document defines, each once. -/
def names (d : Document) : List String :=
  Distinct.ofList d.reading.names

/-- A document that has just been read. -/
def fresh (d : Document) : Document :=
  { d.applyRead (Content.ofText d.text) with stage := .parsed }

/-- A document whose names are offered to others. -/
def indexed (d : Document) : Document :=
  { d.fresh with stage := .indexed, offered := some d.names }

/-- A document that is ready to be linked. -/
def surveyed (d : Document) : Document :=
  { d.indexed with stage := .surveyed, own := some d.names }

/-- A document that has been linked in a scope. -/
def linked (d : Document) (u : Uri) (scope : LinkScope) : Document :=
  { d.surveyed with
    stage := .linked
    content := some (d.reading.link u scope)
    diagnostics := (Content.ofText d.text).2
      ++ (d.reading.link u scope).dangling }

/-- A document that is complete. -/
def built (d : Document) (u : Uri) (scope : LinkScope) : Document :=
  { d.linked u scope with
    stage := .validated
    diagnostics := (d.linked u scope).diagnostics
      ++ complaints (d.reading.link u scope) scope }

@[simp] theorem stage_fresh (d : Document) : d.fresh.stage = .parsed :=
  rfl

@[simp] theorem stage_surveyed (d : Document) :
    d.surveyed.stage = .surveyed := rfl

@[simp] theorem stage_built (d : Document) (u : Uri)
    (scope : LinkScope) : (d.built u scope).stage = .validated := rfl

/-- What no work on a document changes. -/
structure Alike (d d' : Document) : Prop where
  text : d'.text = d.text
  version : d'.version = d.version
  builtin : d'.builtin = d.builtin

section Alike

variable {d d' : Document}

/-- The forms of a document only depend on what no work changes. -/
theorem fresh_congr (h : d.Alike d') : d'.fresh = d.fresh := by
  unfold fresh applyRead
  rw [h.text, h.version, h.builtin]

theorem indexed_congr (h : d.Alike d') : d'.indexed = d.indexed := by
  unfold indexed names reading
  rw [fresh_congr h, h.text]

theorem surveyed_congr (h : d.Alike d') : d'.surveyed = d.surveyed := by
  unfold surveyed names reading
  rw [indexed_congr h, h.text]

theorem linked_congr (h : d.Alike d') (u : Uri) (scope : LinkScope) :
    d'.linked u scope = d.linked u scope := by
  unfold linked reading
  rw [surveyed_congr h, h.text]

/-- And in a given scope so does the last of them. -/
theorem built_congr (h : d.Alike d') (u : Uri) (scope : LinkScope) :
    d'.built u scope = d.built u scope := by
  unfold built reading
  rw [linked_congr h, h.text]

end Alike

theorem alike_surveyed (d : Document) : d.Alike d.surveyed :=
  ⟨rfl, rfl, rfl⟩

theorem alike_built (d : Document) (u : Uri) (scope : LinkScope) :
    d.Alike (d.built u scope) := ⟨rfl, rfl, rfl⟩

/-- The way back does not change what no work changes. -/
theorem alike_demote (d : Document) (target : Stage) :
    d.Alike (d.demote target) := by
  unfold demote
  split
  · exact ⟨rfl, rfl, rfl⟩
  · exact ⟨rfl, rfl, rfl⟩

theorem alike_outdated (d : Document) : d.Alike d.outdated :=
  ⟨(d.unlink.alike_demote .changed).text,
    (d.unlink.alike_demote .changed).version,
    (d.unlink.alike_demote .changed).builtin⟩

/-- Nobody who is sent back becomes another document. -/
theorem alike_sentBack (d : Document) : d.Alike d.sentBack := by
  unfold sentBack
  split
  · exact ⟨(d.unlink.alike_demote .surveyed).text,
      (d.unlink.alike_demote .surveyed).version,
      (d.unlink.alike_demote .surveyed).builtin⟩
  · exact ⟨rfl, rfl, rfl⟩

-- ============================================================== phases

/-- Indexing takes a document that has been read to the next form. -/
theorem work_index (d : Document) (u : Uri) (scope : LinkScope) :
    (Phase.index.work u scope d.fresh).map (·.advance .indexed)
      = .ok d.indexed := rfl

/-- Scoping does so next. -/
theorem work_scope (d : Document) (u : Uri) (scope : LinkScope) :
    (Phase.scope.work u scope d.indexed).map (·.advance .surveyed)
      = .ok d.surveyed := rfl

/-- Linking does, in whatever scope it happens. -/
theorem work_link (d : Document) (u : Uri) (scope : LinkScope) :
    (Phase.link.work u scope d.surveyed).map (·.advance .linked)
      = .ok (d.linked u scope) := by
  rw [Phase.work_eq]
  rfl

/-- And so does checking, in the scope of the linking. -/
theorem work_validate (d : Document) (u : Uri) (scope : LinkScope) :
    (Phase.validate.work u scope (d.linked u scope)).map
      (·.advance .validated) = .ok (d.built u scope) := rfl

-- ========================================================= going back

/-- The issues of a text outlive any way back that does not go as far
as its reading. -/
theorem filter_survives_ofText (d : Document) :
    (Content.ofText d.text).2.filter (survives .surveyed)
      = (Content.ofText d.text).2 := by
  refine List.filter_eq_self.2 fun x hx => ?_
  obtain ⟨issue, span, rfl⟩ := Content.issues_ofText d.text x hx
  rfl

/-- What linking has reported does not outlive the way back. -/
theorem filter_survives_dangling (c : Content) :
    c.dangling.filter (survives .surveyed) = [] := by
  refine List.filter_eq_nil_iff.2 fun x hx => ?_
  cases c with
  | descriptor d => cases hx
  | ordinary b =>
    obtain ⟨r, -, rfl⟩ := List.mem_map.1 hx
    show ¬ decide (Stage.linked ≤ Stage.surveyed) = true
    decide

/-- Complaints are the validator's. -/
theorem origin_complaints (c : Content) (scope : LinkScope) :
    ∀ x ∈ complaints c scope, x.origin = .validator := by
  intro x hx
  unfold complaints at hx
  split at hx
  · obtain ⟨y, -, rfl⟩ := List.mem_map.1 hx
    rfl
  · split at hx
    · cases hx
    · rcases List.mem_append.1 hx with hx | hx
      · obtain ⟨y, -, rfl⟩ := List.mem_map.1 hx
        rfl
      · obtain ⟨y, -, rfl⟩ :=
          Option.map_eq_some_iff.1 (Option.mem_toList.1 hx)
        rfl

/-- Neither do the complaints. -/
theorem filter_survives_complaints (c : Content) (scope : LinkScope) :
    (complaints c scope).filter (survives .surveyed) = [] := by
  refine List.filter_eq_nil_iff.2 fun x hx => ?_
  unfold survives
  rw [origin_complaints c scope x hx]
  decide

/-- Whoever has been linked and is sent back is what it was before, if
nothing that has been reported of it since outlives the way back. -/
theorem sentBack_above (d : Document) (u : Uri) (scope : LinkScope)
    {stage : Stage} (hstage : .surveyed < stage)
    {reports : List Diagnostic}
    (hreports : reports.filter (survives .surveyed) = []) :
    sentBack { d.surveyed with
      stage := stage
      content := some (d.reading.link u scope)
      diagnostics := (Content.ofText d.text).2 ++ reports }
      = d.surveyed := by
  have hcontent : some (d.reading.link u scope).unlink
      = some d.reading := by
    rw [Content.unlink_link]
    exact congrArg some (Content.unlink_ofText d.text)
  have hdiagnostics : ((Content.ofText d.text).2 ++ reports).filter
      (survives .surveyed) = (Content.ofText d.text).2 := by
    rw [List.filter_append, filter_survives_ofText, hreports,
      List.append_nil]
  unfold sentBack unlink demote
  rw [if_pos hstage, if_pos hstage, Option.map_some, hcontent,
    hdiagnostics]
  rfl

/-- A document that has just been linked is sent back to what it was. -/
theorem sentBack_linked (d : Document) (u : Uri) (scope : LinkScope) :
    (d.linked u scope).sentBack = d.surveyed :=
  d.sentBack_above u scope (by decide) (filter_survives_dangling _)

/-- A complete document that is sent back is what it was before it was
linked. -/
theorem sentBack_built (d : Document) (u : Uri) (scope : LinkScope) :
    (d.built u scope).sentBack = d.surveyed := by
  have hreports : ((d.reading.link u scope).dangling
      ++ complaints (d.reading.link u scope) scope).filter
        (survives .surveyed) = [] := by
    rw [List.filter_append, filter_survives_dangling,
      filter_survives_complaints, List.append_nil]
  unfold built linked
  rw [List.append_assoc]
  exact d.sentBack_above u scope (by decide) hreports

-- ============================================================ at rest

/-- The forms that a document has between requests. -/
inductive Ready (u : Uri) (d : Document) : Prop where
  /-- The text is still to be read. -/
  | unread (hstage : d.stage = .changed) (hknown : d.content.isSome)
  /-- The document is new. -/
  | fresh (h : d = d.fresh)
  /-- The document has been sent back. -/
  | surveyed (h : d = d.surveyed)
  /-- The document is complete. -/
  | built (scope : LinkScope) (h : d = d.built u scope)

/-- A document at rest has some content. -/
theorem Ready.known {u : Uri} {d : Document} (h : d.Ready u) :
    d.content.isSome := by
  cases h with
  | unread _ hknown => exact hknown
  | fresh h => rw [h]; rfl
  | surveyed h => rw [h]; rfl
  | built scope h => rw [h]; rfl

/-- And it is in line with its text. -/
theorem Ready.faithful {u : Uri} {d : Document} (h : d.Ready u) :
    d.Faithful := by
  refine ⟨h.known, fun hne => ?_⟩
  cases h with
  | unread hstage _ => exact absurd hstage hne
  | fresh h => rw [h]; rfl
  | surveyed h => rw [h]; rfl
  | built scope h =>
    rw [h]
    exact d.reading.descriptor?_link u scope

/-- A document that has been read is in the form of its text. -/
theorem ready_read (text : String) (u : Uri) : (read text).Ready u :=
  .fresh rfl

/-- A document at rest that is given a text is at rest. -/
theorem ready_outdated {u : Uri} {d : Document} (h : d.Ready u)
    (text : String) : (d.outdated.setText text).Ready u :=
  .unread d.stage_outdated (faithful_outdated h.known).known

/-- So is one that is sent back. -/
theorem ready_sentBack {u : Uri} {d : Document} (h : d.Ready u) :
    d.sentBack.Ready u := by
  cases h with
  | unread hstage hknown =>
    rw [sentBack, if_neg (by rw [hstage]; decide)]
    exact .unread hstage hknown
  | fresh h =>
    rw [sentBack, if_neg (by rw [h, stage_fresh]; decide)]
    exact .fresh h
  | surveyed h =>
    rw [sentBack, if_neg (by rw [h, stage_surveyed]; decide)]
    exact .surveyed h
  | built scope h =>
    rw [h, sentBack_built]
    exact .surveyed (surveyed_congr d.alike_surveyed).symm

/-- A document is complete exactly if it is pending no more. -/
theorem Ready.built_iff {u : Uri} {d : Document} (h : d.Ready u) :
    ¬ d.stage < .validated ↔ ∃ scope, d = d.built u scope := by
  constructor
  · intro hlt
    cases h with
    | unread hstage _ => rw [hstage] at hlt; exact absurd (by decide) hlt
    | fresh h => rw [h, stage_fresh] at hlt; exact absurd (by decide) hlt
    | surveyed h =>
      rw [h, stage_surveyed] at hlt
      exact absurd (by decide) hlt
    | built scope h => exact ⟨scope, h⟩
  · intro hcase
    rcases hcase with ⟨scope, h⟩
    rw [h, stage_built]
    decide

/-- A pending document that has been read where it had to be is ready
for its phases. -/
theorem Ready.reread {u : Uri} {d : Document} (h : d.Ready u)
    (hlt : d.stage < .validated) :
    d.reread = d.fresh ∨ d.reread = d.surveyed := by
  cases h with
  | unread hstage _ =>
    left
    unfold Document.reread advance
    rw [if_pos hstage]
    have hlt' : (d.applyRead (Content.ofText d.text)).stage < .parsed := by
      show d.stage < .parsed
      rw [hstage]
      decide
    rw [if_pos hlt']
    rfl
  | fresh h =>
    left
    rw [reread_of_ne (by rw [h, stage_fresh]; decide)]
    exact h
  | surveyed h =>
    right
    rw [reread_of_ne (by rw [h, stage_surveyed]; decide)]
    exact h
  | built scope h =>
    rw [h, stage_built] at hlt
    exact absurd hlt (by decide)

end Document

end Purview

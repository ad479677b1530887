/-
What an update leaves of the texts that it is given. A document has a
text and a count of how often it has been replaced, and what happens to
the two is a matter of the changes that name the document (`revise`):
whatever else a change or a build does to it, they stay
(`revision?_apply`, `alike_update`). The count is kept in 32 bits, and
so is what a batch adds to it.

A batch makes its removals before its edits. So a document that is
removed in the batch starts anew with the first text that the batch has
for it, wherever the removal stands, and any other takes the texts on
from where it is (`Revision.given`). The same goes for the order of the
documents: removals leave gaps, and edits add at the end who is not
there by then (`uris_update`).
-/
import Purview.Proofs.Onward
import Purview.Proofs.Repeated

namespace Purview

-- ============================================================ revisions

/-- What a document owes to changes alone, and whether it is open to
them. -/
structure Revision where
  text : String
  version : UInt32
  builtin : Bool
deriving DecidableEq

/-- A document, or none, that has been given texts one after another.
The first of them loads a document that is not there. -/
def Revision.given (texts : List String) :
    Option Revision → Option Revision
  | some r => some (if r.builtin then r
      else ⟨texts.getLast?.getD r.text, r.version + .ofNat texts.length,
        false⟩)
  | none =>
    texts.getLast?.map fun text => ⟨text, .ofNat (texts.length - 1), false⟩

namespace Change

/-- What becomes of the document that a change names. -/
def revise (r? : Option Revision) : Change → Option Revision
  | .edit file => Revision.given [file.text] r?
  | .removal _ => r?.filter (·.builtin)

/-- The documents of the edits of a batch, with their new texts. -/
def edits (changes : List Change) : List SourceFile :=
  changes.filterMap fun
    | .edit file => some file
    | .removal _ => none

/-- The documents of the removals of a batch. -/
def removals (changes : List Change) : List Uri :=
  changes.filterMap fun
    | .edit _ => none
    | .removal u => some u

/-- The texts that a batch has for a document. -/
def textsFor (changes : List Change) (u : Uri) : List String :=
  ((edits changes).filter (·.uri = u)).map (·.text)

variable {changes : List Change} {u : Uri}

/-- The removals are told by the identities they name. -/
theorem mem_removals : u ∈ removals changes ↔ .removal u ∈ changes := by
  unfold removals
  rw [List.mem_filterMap]
  constructor
  · rintro ⟨c, hc, h⟩
    cases c with
    | edit file => cases h
    | removal v =>
      obtain rfl := Option.some.inj h
      exact hc
  · intro h
    exact ⟨_, h, rfl⟩

end Change

/-- A batch makes its removals and then its edits. -/
theorem Scene.ordered_eq (changes : List Change) :
    ordered changes = (Change.removals changes).map .removal
      ++ (Change.edits changes).map .edit := by
  unfold ordered
  congr 1
  · induction changes with
    | nil => rfl
    | cons c changes ih =>
      cases c with
      | edit file => exact ih
      | removal u => exact congrArg (.removal u :: ·) ih
  · induction changes with
    | nil => rfl
    | cons c changes ih =>
      cases c with
      | edit file => exact congrArg (.edit file :: ·) ih
      | removal u => exact ih

/-- One text after another. -/
theorem Revision.given_cons (text : String) (texts : List String)
    (r? : Option Revision) :
    given (text :: texts) r? = given texts (given [text] r?) := by
  cases r? with
  | none =>
    simp only [given, List.getLast?_cons, List.getLast?_nil,
      Option.getD_none, Option.map_some, List.length_cons,
      List.length_nil, Nat.sub_self, Nat.zero_add, Nat.add_sub_cancel,
      Bool.false_eq_true, if_false, ← UInt32.ofNat_add]
  | some r =>
    obtain ⟨old, version, builtin⟩ := r
    cases builtin with
    | true => rfl
    | false =>
      simp only [given, List.getLast?_cons, List.getLast?_nil,
        Option.getD_none, Option.getD_some, List.length_cons,
        List.length_nil, Nat.zero_add, Bool.false_eq_true, if_false,
        UInt32.add_assoc, ← UInt32.ofNat_add, Nat.add_comm 1]

theorem Revision.given_nil (r? : Option Revision) :
    given [] r? = r? := by
  rcases r? with _ | ⟨text, version, _ | _⟩
  · rfl
  · exact congrArg (fun n => some (Revision.mk text n false))
      (UInt32.add_zero version)
  · rfl

/-- A builtin takes no text. -/
theorem Revision.given_of_builtin {r : Revision} (h : r.builtin = true)
    (texts : List String) : given texts (some r) = some r := by
  rw [given, if_pos h]

theorem Revision.given_of_open {r : Revision} (h : r.builtin = false)
    (texts : List String) : given texts (some r)
      = some ⟨texts.getLast?.getD r.text,
        r.version + .ofNat texts.length, false⟩ := by
  rw [given, if_neg (by simp [h])]

/-- Who is given a text is loaded behind it. -/
theorem Revision.isSome_given {texts : List String}
    {r? : Option Revision} :
    (given texts r?).isSome = true ↔ texts ≠ [] ∨ r?.isSome = true := by
  cases r? with
  | none => simp [given]
  | some r => simp [given]

/-- What a document owes to changes. -/
def Document.revision (d : Document) : Revision :=
  ⟨d.text, d.version, d.builtin⟩

/-- No work on a document revises it. -/
theorem Document.Alike.revision {d d' : Document} (h : d.Alike d') :
    d'.revision = d.revision := by
  unfold Document.revision
  rw [h.text, h.version, h.builtin]

namespace Store

/-- What the document of an identity owes to changes. -/
def revision? (s : Store) (u : Uri) : Option Revision :=
  (s.get? u).map Document.revision

/-- A document that is there and is not removed by a batch. -/
def Stays (s : Store) (changes : List Change) (u : Uri) : Prop :=
  u ∈ s.uris ∧ (s.isBuiltin u = true ∨ .removal u ∉ changes)

instance (s : Store) (changes : List Change) (u : Uri) :
    Decidable (s.Stays changes u) :=
  inferInstanceAs (Decidable (_ ∧ _))

variable {s t : Store} {u : Uri}

theorem isBuiltin_eq_any (s : Store) (u : Uri) :
    s.isBuiltin u = (s.revision? u).any (·.builtin) := by
  unfold isBuiltin revision?
  rw [Option.any_map]
  rfl

/-- Who is loaded has a revision. -/
theorem mem_uris_iff (s : Store) (u : Uri) :
    u ∈ s.uris ↔ (s.revision? u).isSome = true := by
  rw [← isSome_get?, revision?, Option.isSome_map]

/-- Documents that are alike have the same revisions. -/
theorem Alike.revision? (h : s.Alike t) : t.revision? = s.revision? := by
  funext u
  unfold Store.revision?
  cases hd : s.get? u with
  | none =>
    rw [get?_none_of_uris h.uris hd]
  | some d =>
    obtain ⟨d', hd', halike⟩ := h.each u d hd
    rw [hd', Option.map_some, Option.map_some, halike.revision]

/-- What a change puts in the place of the document that it names. -/
theorem revision_revised (s : Store) (c : Change) :
    (s.revised c).map Document.revision = c.revise (s.revision? c.uri) := by
  unfold revision?
  cases hd : s.get? c.uri with
  | none =>
    rw [revised_of_none hd]
    cases c <;> rfl
  | some d =>
    cases hb : d.builtin with
    | true =>
      rw [revised_of_builtin hd hb]
      cases c <;>
        simp [Change.revise, Revision.given, Document.revision, hb,
          Option.filter_some]
    | false =>
      rw [revised_of_loaded hd hb]
      have hout := d.alike_outdated
      cases c with
      | edit file =>
        simp [Change.revise, Revision.given, Document.revision, hb,
          Change.text?, Document.setText, hout.version, hout.builtin]
      | removal u =>
        simp [Change.revise, Document.revision, hb, Change.text?,
          Option.filter_some]

end Store

-- ============================================================== batches

namespace Scene

variable (host : Host)

/-- A change revises the document that it names, and no other. -/
theorem revision?_apply (s : Scene) (c : Change) (u : Uri) :
    (s.apply host c).1.store.revision? u
      = if u = c.uri then c.revise (s.store.revision? u)
        else s.store.revision? u := by
  rw [Store.revision?, get?_apply]
  split
  · next hu =>
    rw [hu]
    exact s.store.revision_revised c
  · rw [Option.map_map]
    refine Option.map_congr fun d _ => ?_
    rw [Function.comp]
    split
    · exact d.alike_sentBack.revision
    · rfl

/-- Who is removed is gone, unless it is a builtin. -/
theorem revision?_foldl_removals (us : List Uri) (s : Scene) (u : Uri) :
    ((us.map Change.removal).foldl (fun s c => (s.apply host c).1)
        s).store.revision? u
      = if s.store.isBuiltin u = true ∨ u ∉ us then s.store.revision? u
        else none := by
  induction us generalizing s with
  | nil => simp
  | cons v us ih =>
    rw [List.map_cons, List.foldl_cons, ih,
      (texts_apply host s (.removal v)).2, revision?_apply]
    by_cases hv : u = v
    · subst hv
      have hfilter : (s.store.revision? u).filter (·.builtin)
          = if s.store.isBuiltin u then s.store.revision? u else none := by
        rw [s.store.isBuiltin_eq_any]
        cases s.store.revision? u <;> simp [Option.filter_some]
      simp only [Change.uri, Change.revise, if_true, hfilter]
      cases s.store.isBuiltin u <;> simp
    · simp [Change.uri, hv]

/-- Edits in a row give each document its texts. -/
theorem revision?_foldl_edits (files : List SourceFile) (s : Scene)
    (u : Uri) :
    ((files.map Change.edit).foldl (fun s c => (s.apply host c).1)
        s).store.revision? u
      = Revision.given ((files.filter (·.uri = u)).map (·.text))
        (s.store.revision? u) := by
  induction files generalizing s with
  | nil => exact (Revision.given_nil _).symm
  | cons file files ih =>
    rw [List.map_cons, List.foldl_cons, ih, revision?_apply]
    by_cases hfile : u = (Change.edit file).uri
    · have hown : (file :: files).filter (·.uri = u)
          = file :: files.filter (·.uri = u) :=
        List.filter_cons_of_pos (decide_eq_true hfile.symm)
      rw [if_pos hfile, hown, List.map_cons, Revision.given_cons]
      rfl
    · have hother : (file :: files).filter (·.uri = u)
          = files.filter (·.uri = u) :=
        List.filter_cons_of_neg fun h => hfile (of_decide_eq_true h).symm
      rw [if_neg hfile, hother]

/-- Removals leave gaps; builtins stay. -/
theorem uris_foldl_removals (us : List Uri) (s : Scene) :
    ((us.map Change.removal).foldl (fun s c => (s.apply host c).1)
        s).store.uris
      = s.store.uris.filter fun v => s.store.isBuiltin v || v ∉ us := by
  induction us generalizing s with
  | nil => simp
  | cons u us ih =>
    rw [List.map_cons, List.foldl_cons, ih, uris_apply,
      (texts_apply host s (.removal u)).2]
    dsimp only
    split
    · next hu =>
      refine List.filter_congr fun v _ => ?_
      by_cases hv : v = u
      · rw [hv, hu, Bool.true_or, Bool.true_or]
      · simp [hv]
    · next hu =>
      rw [List.filter_filter]
      refine List.filter_congr fun v _ => ?_
      by_cases hv : v = u
      · simp [hv, hu]
      · simp [hv]

/-- Behind its changes an update changes no document's text. -/
theorem alike_update (s : Scene) (changes : List Change) :
    Store.Alike (s.changed host changes).store
      (s.update host changes).1.store := by
  rw [update_eq]
  refine Store.Alike.trans (t := (s.prepared host changes).store) ?_
    (Store.alike_touches (touches_buildBatch host _ _))
  rw [store_prepared]
  refine Store.alike_alter fun v d _ => ?_
  split
  · exact d.alike_sentBack
  · exact ⟨rfl, rfl, rfl⟩

/-- What a batch changes, with its removals apart from its edits. -/
theorem changed_split (s : Scene) (changes : List Change) :
    ∃ s' : Scene, s'.store = s.store ∧ s.changed host changes
      = ((Change.edits changes).map .edit).foldl
          (fun s c => (s.apply host c).1)
          (((Change.removals changes).map .removal).foldl
            (fun s c => (s.apply host c).1) s') := by
  refine ⟨(s.relinkCandidates (Distinct.ofList
    (changes.map Change.uri))).1, rfl, ?_⟩
  rw [changed, applyAll_eq, ordered_eq, List.foldl_append]

/-- A document behind an update: if it does not stay it starts anew with
the texts that there are for it. -/
theorem revision?_update (s : Scene) (changes : List Change) (u : Uri) :
    (s.update host changes).1.store.revision? u
      = Revision.given (Change.textsFor changes u)
        (if s.store.Stays changes u then s.store.revision? u
          else none) := by
  obtain ⟨s', hstore, hchanged⟩ := changed_split host s changes
  rw [(alike_update host s changes).revision?, hchanged,
    revision?_foldl_edits, revision?_foldl_removals, hstore]
  congr 1
  simp only [Change.mem_removals, Store.Stays, s.store.mem_uris_iff]
  cases s.store.revision? u with
  | none => simp
  | some r => simp only [Option.isSome_some, true_and]

/-- The documents that are there behind an update, in their order. -/
theorem uris_update (s : Scene) (changes : List Change) :
    (s.update host changes).1.store.uris
      = s.store.uris.filter (s.store.Stays changes ·)
        ++ (Distinct.ofList ((Change.edits changes).map (·.uri))).filter
          (¬ s.store.Stays changes ·) := by
  have hstays : s.store.uris.filter (fun u => s.store.isBuiltin u
        || decide (u ∉ Change.removals changes))
      = s.store.uris.filter (s.store.Stays changes ·) := by
    refine List.filter_congr fun u hu => ?_
    simp [Store.Stays, hu, Change.mem_removals]
  obtain ⟨s', hstore, hchanged⟩ := changed_split host s changes
  rw [(alike_update host s changes).uris, hchanged, uris_foldl_edits,
    uris_foldl_removals, hstore, hstays, ← Distinct.union_ofList,
    Distinct.union_eq_append (Distinct.nodup_ofList _)]
  congr 1
  refine List.filter_congr fun u _ => decide_eq_decide.2 (not_congr ?_)
  rw [List.mem_filter, decide_eq_true_eq]
  exact and_iff_right_of_imp And.left

end Scene

-- ============================================================ workspaces

namespace Workspace

/-- No edit is lost, whatever the host of an update does. A builtin stays
as it is. Any other document is there behind the update if there is a
text for it, or if it was there and is not removed. One that was there
and is not removed takes on its texts, each of which counts; one that
was not there or is removed starts anew with the first of them. Who stays
keeps its place, and the others follow in the order of their first
texts. -/
theorem update_revisions (w : Workspace) (host : Host) (withdrawn : Bool)
    (changes : List Change) :
    let s := w.store
    let t := (w.serve ⟨host, withdrawn, .update changes⟩).store
    let texts := Change.textsFor changes
    (∀ u, s.isBuiltin u = false →
      (u ∈ t.uris ↔ texts u ≠ [] ∨ (u ∈ s.uris ∧ .removal u ∉ changes)))
    ∧ (∀ u d, s.get? u = some d → d.builtin = true →
      ∃ d', t.get? u = some d' ∧ d'.text = d.text
        ∧ d'.version = d.version ∧ d'.builtin = true)
    ∧ (∀ u d, s.get? u = some d → d.builtin = false →
      .removal u ∉ changes →
      ∃ d', t.get? u = some d' ∧ d'.text = (texts u).getLast?.getD d.text
        ∧ d'.version = d.version + .ofNat (texts u).length
        ∧ d'.builtin = false)
    ∧ (∀ u, ¬ s.Stays changes u → ∀ text, (texts u).getLast? = some text →
      ∃ d', t.get? u = some d' ∧ d'.text = text
        ∧ d'.version = .ofNat ((texts u).length - 1)
        ∧ d'.builtin = false)
    ∧ t.uris = s.uris.filter (s.Stays changes ·)
      ++ (Distinct.ofList ((Change.edits changes).map (·.uri))).filter
        (¬ s.Stays changes ·) := by
  intro s t texts
  have ht : t
      = ((w.begin withdrawn).scene.update host changes).1.store := by
    rw [Scene.update_eq, ← scene_serve_update host withdrawn changes]
    rfl
  have hs : (w.begin withdrawn).scene.store = s := rfl
  have huris := (w.begin withdrawn).scene.uris_update host changes
  have hrevision := (w.begin withdrawn).scene.revision?_update host changes
  rw [← ht, hs] at huris
  simp only [← ht, hs] at hrevision
  have hfound : ∀ {u r}, t.revision? u = some r → ∃ d', t.get? u = some d'
      ∧ d'.text = r.text ∧ d'.version = r.version
      ∧ d'.builtin = r.builtin := by
    intro u r hr
    obtain ⟨d', hd', rfl⟩ := Option.map_eq_some_iff.1 hr
    exact ⟨d', hd', rfl, rfl, rfl⟩
  -- a document that stays, with its revision before the update
  have hstays : ∀ {u d}, s.get? u = some d →
      (d.builtin = true ∨ .removal u ∉ changes) →
      t.revision? u = Revision.given (texts u) (some d.revision) := by
    intro u d hd hkept
    have hmem : u ∈ s.uris := (s.isSome_get? u).1 (by rw [hd]; rfl)
    rw [← Store.isBuiltin_of_some hd] at hkept
    rw [hrevision, if_pos ⟨hmem, hkept⟩, Store.revision?, hd,
      Option.map_some]
  refine ⟨fun u hu => ?_, fun u d hd hb => ?_, fun u d hd hb hkept => ?_,
    fun u hu text htext => ?_, huris⟩
  · rw [t.mem_uris_iff, hrevision, Revision.isSome_given]
    have hstays : s.Stays changes u ↔ u ∈ s.uris ∧ .removal u ∉ changes := by
      unfold Store.Stays
      rw [hu]
      simp
    refine or_congr_right ?_
    rw [← hstays]
    split
    · next h => exact iff_of_true ((s.mem_uris_iff u).1 h.1) h
    · next h => exact iff_of_false Bool.false_ne_true h
  · have hafter := hstays hd (.inl hb)
    rw [Revision.given_of_builtin hb] at hafter
    obtain ⟨d', hd', htext, hversion, hmark⟩ := hfound hafter
    exact ⟨d', hd', htext, hversion, hmark.trans hb⟩
  · have hafter := hstays hd (.inr hkept)
    rw [Revision.given_of_open hb] at hafter
    exact hfound hafter
  · have hafter := hrevision u
    rw [if_neg hu, Revision.given, htext] at hafter
    exact hfound hafter

end Workspace

end Purview

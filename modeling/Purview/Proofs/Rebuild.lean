/-
How a workspace that has been kept up compares with one that starts
from what is left. Both hold the same documents in the same order
(`sameRoster_rebuilt`), so in both the same is seen and offered, and
they differ only where a document has been linked in another scope than
the finished documents give (`agrees_rebuilt_iff`).

An update links the documents that are pending when its build begins
and passes over the others, so there are two ways to go wrong
(`settled_update_iff`). A document may be passed over that would be
linked otherwise now (`Overlooks`): whether to relink it is decided
before the build, by projects that have not been read or linked yet.
And a document may be linked by a horizon from before the build, if the
build comes to no project and forgets nothing (`Misleads`).
-/
import Purview.Proofs.Regular

namespace Purview

-- ============================================================== rosters

/-- The texts of files that do not repeat an identity. -/
theorem lastText_of_nodup {files : List SourceFile}
    (h : (files.map (·.uri)).Nodup) {file : SourceFile}
    (hmem : file ∈ files) : lastText files file.uri = some file.text := by
  induction files with
  | nil => cases hmem
  | cons x files ih =>
    obtain ⟨hx, hrest⟩ := List.nodup_cons.1 h
    rw [lastText_cons]
    rcases List.mem_cons.1 hmem with rfl | hmem
    · have hnone : lastText files file.uri = none := by
        cases hlast : lastText files file.uri with
        | none => rfl
        | some text =>
          exact absurd (Distinct.mem_ofList.1 (mem_of_lastText hlast)) hx
      rw [hnone]
      simp
    · rw [ih hrest hmem]
      rfl

namespace Store

variable {s t : Store}

/-- The same documents are loaded, in the same order. -/
structure SameRoster (s t : Store) : Prop where
  uris : t.uris = s.uris
  text : ∀ u, (t.get? u).map (·.text) = (s.get? u).map (·.text)

/-- A complete document is the project that its text describes. -/
theorem Done.entry (hs : s.Done) (v : Uri) :
    ((s.get? v).bind fun d => Project.ofEntry? (v, d))
      = ((s.get? v).map (·.text)).bind fun text =>
        (Content.ofText text).1.descriptor?.map
          fun x => ⟨v, x, .validated⟩ := by
  cases hd : s.get? v with
  | none => rfl
  | some d =>
    obtain ⟨scope, hbuilt⟩ := hs v d hd
    have hdescriptor := (congrArg Document.descriptor? hbuilt).trans
      (d.descriptor?_built v scope)
    simp only [Option.bind_some, Option.map_some, Project.ofEntry?,
      hdescriptor, hs.stage hd]

/-- Complete documents of one roster have one layout. -/
theorem SameRoster.layout (h : SameRoster s t) (hs : s.Done)
    (ht : t.Done) : SameLayout t s := by
  refine sameLayout_of_get? h.uris fun v => ?_
  rw [ht.entry, hs.entry, h.text]

/-- What a complete document offers is what its text defines. -/
theorem Done.offered (hs : s.Done) (v : Uri) :
    (s.get? v).bind (·.offered) = ((s.get? v).map (·.text)).map
      fun text => Distinct.ofList (Content.ofText text).1.names := by
  cases hd : s.get? v with
  | none => rfl
  | some d =>
    obtain ⟨scope, hbuilt⟩ := hs v d hd
    exact congrArg Document.offered hbuilt

theorem SameRoster.offersOf (h : SameRoster s t) (hs : s.Done)
    (ht : t.Done) (us : List Uri) : t.offersOf us = s.offersOf us := by
  unfold Store.offersOf
  refine List.filterMap_congr fun v _ => ?_
  rw [ht.offered, hs.offered, h.text]

/-- Complete documents of one roster have the same scopes. -/
theorem SameRoster.scopeOf (h : SameRoster s t) (hs : s.Done)
    (ht : t.Done) (builtins : List Uri) (u : Uri) :
    t.scopeOf builtins u = s.scopeOf builtins u := by
  have hcandidates : ∀ v : Visibility,
      t.candidates u v = s.candidates u v := by
    intro v
    unfold candidates
    rw [h.uris]
  unfold Store.scopeOf
  rw [horizon_of_layout (h.layout hs ht), hcandidates,
    h.offersOf hs ht]

-- ============================================================ survivors

/-- The documents that would be handed in again: all but the builtins,
in load order. -/
def survivors (s : Store) : List SourceFile :=
  (s.entries.filter fun e => !e.2.builtin).map fun e => ⟨e.1, e.2.text⟩

theorem mem_survivors {u : Uri} {text : String} :
    ⟨u, text⟩ ∈ s.survivors ↔
      ∃ d, s.get? u = some d ∧ d.builtin = false ∧ d.text = text := by
  unfold survivors
  simp only [List.mem_map, List.mem_filter, SourceFile.mk.injEq,
    Prod.exists, mem_entries, Bool.not_eq_true']
  constructor
  · intro hcase
    rcases hcase with ⟨v, d, ⟨hd, hb⟩, rfl, rfl⟩
    exact ⟨d, hd, hb, rfl⟩
  · intro hcase
    rcases hcase with ⟨d, hd, hb, rfl⟩
    exact ⟨u, d, ⟨hd, hb⟩, rfl, rfl⟩

theorem uris_survivors_nodup (s : Store) :
    (s.survivors.map (·.uri)).Nodup := by
  unfold survivors
  rw [List.map_map]
  exact s.nodup.sublist (List.filter_sublist.map Prod.fst)

/-- Behind the builtins come the survivors. -/
theorem Founded.uris_survivors {builtins : List SourceFile}
    (h : s.Founded builtins) :
    s.uris = Distinct.ofList (builtins.map (·.uri))
      ++ s.survivors.map (·.uri) := by
  obtain ⟨later, hlater⟩ := h.base
  have hdisjoint := (List.nodup_append.1 (hlater ▸ s.uris_nodup)).2.2
  have hsurvivors : s.survivors.map (·.uri) = s.uris.filter
      (· ∉ Distinct.ofList (builtins.map (·.uri))) := by
    unfold survivors uris
    rw [List.map_map, List.filter_map]
    refine congrArg (List.map Prod.fst) (List.filter_congr fun e he => ?_)
    have hmarked := h.marked e.1 e.2 (mem_entries.1 he)
    rw [Function.comp_apply, Bool.eq_iff_iff, Bool.not_eq_true',
      decide_eq_true_eq, ← hmarked, Bool.not_eq_true]
  have hlast : later.filter
      (· ∉ Distinct.ofList (builtins.map (·.uri))) = later := by
    refine List.filter_eq_self.2 fun v hv => ?_
    rw [decide_eq_true_eq]
    exact fun hmem => hdisjoint v hmem v hv rfl
  rw [hsurvivors, hlater, List.filter_append, hlast,
    List.filter_eq_nil_iff.2 (by simp), List.nil_append]

end Store

-- ============================================================ rebuilding

namespace Workspace

/-- A workspace that starts with what is left of another. -/
def rebuilt (builtins : List SourceFile) (s : Store) : Workspace :=
  (started builtins s.survivors).1

variable {builtins : List SourceFile} {s : Store}

/-- What a rebuilt workspace holds. -/
theorem store_rebuilt (builtins : List SourceFile) (s : Store) :
    let t := (rebuilt builtins s).store
    t.uris = Distinct.ofList ((builtins ++ s.survivors).map (·.uri))
    ∧ ∀ u, t.get? u = (initial builtins s.survivors u).map fun d =>
      d.built u (scopeAt t (Distinct.ofList (builtins.map (·.uri))) u d) :=
  store_started builtins s.survivors

/-- The texts that a workspace starts with when it is rebuilt are those
it has. -/
theorem text_initial (h : s.Founded builtins) (u : Uri) :
    (initial builtins s.survivors u).map (·.text)
      = (s.get? u).map (·.text) := by
  unfold initial
  cases hlast : lastText builtins u with
  | some text =>
    obtain ⟨later, hlater⟩ := h.base
    have hmem : u ∈ s.uris := by
      rw [hlater]
      exact List.mem_append_left _ (mem_of_lastText hlast)
    obtain ⟨d, hd⟩ :=
      Option.isSome_iff_exists.1 ((Store.isSome_get? s u).2 hmem)
    rw [hd]
    exact congrArg some (h.text u d text hd hlast).symm
  | none =>
    rw [Option.map_none, Option.none_or, Option.map_map]
    cases hd : s.get? u with
    | some d =>
      have hb : d.builtin = false := by
        rw [← Bool.not_eq_true, h.marked u d hd]
        exact notMem_of_lastText hlast
      have hmem : ⟨u, d.text⟩ ∈ s.survivors :=
        Store.mem_survivors.2 ⟨d, hd, hb, rfl⟩
      rw [show lastText s.survivors u = some d.text from
        lastText_of_nodup s.uris_survivors_nodup hmem]
      rfl
    | none =>
      cases hlast' : lastText s.survivors u with
      | none => rfl
      | some text =>
        have hmem := Distinct.mem_ofList.1 (mem_of_lastText hlast')
        obtain ⟨file, hfile, rfl⟩ := List.mem_map.1 hmem
        obtain ⟨d, hd', -⟩ := Store.mem_survivors.1 hfile
        rw [hd] at hd'
        cases hd'

/-- A rebuilt workspace holds the same documents in the same order. -/
theorem sameRoster_rebuilt (h : s.Founded builtins) :
    s.SameRoster (rebuilt builtins s).store := by
  have hunion : Distinct.union (Distinct.ofList (builtins.map (·.uri)))
      (s.survivors.map (·.uri))
        = Distinct.ofList (builtins.map (·.uri))
          ++ s.survivors.map (·.uri) := by
    rw [Distinct.union_eq_append s.uris_survivors_nodup]
    congr 1
    refine List.filter_eq_self.2 fun v hv => ?_
    rw [decide_eq_true_eq]
    have hnd := h.uris_survivors ▸ s.uris_nodup
    exact fun hmem => (List.nodup_append.1 hnd).2.2 v hmem v hv rfl
  refine ⟨?_, fun u => ?_⟩
  · rw [(store_rebuilt builtins s).1, h.uris_survivors, List.map_append,
      Distinct.ofList_append, hunion]
  · rw [(store_rebuilt builtins s).2, Option.map_map, ← text_initial h]
    rfl

theorem done_rebuilt (builtins : List SourceFile) (s : Store) :
    (rebuilt builtins s).store.Done := by
  intro u d hd
  rw [(store_rebuilt builtins s).2] at hd
  obtain ⟨x, -, rfl⟩ := Option.map_eq_some_iff.1 hd
  exact ⟨_, (Document.built_congr (x.alike_built u _) u _).symm⟩

end Workspace

namespace Document

/-- What a complete ordinary document reports follows from where it
leads. -/
theorem diagnostics_of_link {d x : Document} {u : Uri}
    {scope scope' : LinkScope} (hord : d.announces = false)
    (htext : x.text = d.text)
    (hlink : d.reading.link u scope' = d.reading.link u scope) :
    (x.built u scope').diagnostics = (d.built u scope).diagnostics := by
  have hreading : x.reading = d.reading := by
    unfold reading
    rw [htext]
  have hcomplaints : complaints (d.reading.link u scope') scope'
      = complaints (d.reading.link u scope) scope := by
    rw [hlink]
    cases hbody : d.reading with
    | descriptor y =>
      have hann : d.announces = true := by
        show d.reading.descriptor?.isSome = true
        rw [hbody]
        rfl
      rw [hann] at hord
      cases hord
    | ordinary b => rfl
  show (Content.ofText x.text).2 ++ (x.reading.link u scope').dangling
      ++ complaints (x.reading.link u scope') scope'
    = (Content.ofText d.text).2 ++ (d.reading.link u scope).dangling
      ++ complaints (d.reading.link u scope) scope
  rw [hreading, htext, hcomplaints, hlink]

end Document

namespace Store

/-- Every ordinary document that is no builtin is the same in another
store, with its targets and its diagnostics. -/
def Agrees (s t : Store) : Prop :=
  ∀ u d, s.get? u = some d → d.builtin = false → d.isProject = false →
    ∃ d', t.get? u = some d' ∧ d'.content = d.content
      ∧ d'.diagnostics = d.diagnostics

/-- Every ordinary document that is no builtin leads where it would if
it were linked now. -/
def Settled (s : Store) (builtins : List Uri) : Prop :=
  ∀ u d, s.get? u = some d → d.builtin = false → d.isProject = false →
    d.content = some (d.reading.link u (s.scopeOf builtins u))

end Store

namespace Workspace

variable {builtins : List SourceFile} {s : Store}

/-- Complete documents agree with a rebuilt workspace exactly if they
lead where they would if they were linked now. -/
theorem agrees_rebuilt_iff (hf : s.Founded builtins) (hs : s.Done) :
    s.Agrees (rebuilt builtins s).store ↔
      s.Settled (Distinct.ofList (builtins.map (·.uri))) := by
  have hroster := sameRoster_rebuilt hf
  have hscope := hroster.scopeOf hs (done_rebuilt builtins s)
  refine forall_congr' fun u => forall_congr' fun d =>
    forall_congr' fun hd => forall_congr' fun _ =>
      forall_congr' fun hord => ?_
  obtain ⟨scope, hbuilt⟩ := hs u d hd
  have hann := (hs.isProject hd).symm.trans hord
  -- the document as it has been rebuilt
  have hinitial := text_initial hf u
  rw [hd] at hinitial
  obtain ⟨x, hx, htext⟩ := Option.map_eq_some_iff.1 hinitial
  have hann' : x.announces = false := by
    unfold Document.announces at hann ⊢
    rw [htext]
    exact hann
  have hget : (rebuilt builtins s).store.get? u
      = some (x.built u (s.scopeOf
        (Distinct.ofList (builtins.map (·.uri))) u)) := by
    rw [(store_rebuilt builtins s).2, hx, Option.map_some]
    unfold scopeAt
    rw [hann', hscope]
    rfl
  have hcontent : (x.built u (s.scopeOf
      (Distinct.ofList (builtins.map (·.uri))) u)).content
        = some (d.reading.link u (s.scopeOf
          (Distinct.ofList (builtins.map (·.uri))) u)) := by
    show some (x.reading.link u _) = _
    unfold Document.reading
    rw [htext]
  constructor
  · intro hcase
    rcases hcase with ⟨d', hd', hsame, -⟩
    rw [hget] at hd'
    obtain rfl := Option.some.inj hd'
    rw [← hsame, hcontent]
  · intro hsettled
    refine ⟨_, hget, hcontent.trans hsettled.symm, ?_⟩
    have hlink := (congrArg Document.content hbuilt).symm.trans hsettled
    exact (Document.diagnostics_of_link hann htext
      (Option.some.inj hlink).symm).trans
        (congrArg Document.diagnostics hbuilt).symm

end Workspace

-- ============================================================== updates

namespace Scene

/-- A batch passes over a document that would lead somewhere else if it
were linked now. -/
def Overlooks (s : Scene) (changes : List Change) (u : Uri) : Prop :=
  let t := (s.update .calm changes).1
  u ∉ changes.map Change.uri ∧ u ∉ s.relinked .calm changes
  ∧ ∃ d, s.store.get? u = some d ∧ d.builtin = false
    ∧ d.isProject = false
    ∧ d.content ≠ some (d.reading.link u (t.store.scopeOf
      t.index.builtins u))

/-- The horizon by which a build links a document without computing it:
one that is remembered, if nothing to be built describes a project. -/
def carried (s : Scene) (u : Uri) : Option Horizon :=
  if s.store.pending.any s.store.announces then none
  else s.index.horizons.lookup u

/-- A batch links a document by a horizon from before, by which it leads
somewhere else than it would if it were linked now. -/
def Misleads (s : Scene) (changes : List Change) (u : Uri) : Prop :=
  let p := s.prepared .calm changes
  let t := (s.update .calm changes).1
  ∃ d h, p.store.get? u = some d ∧ d.stage < .validated
    ∧ d.builtin = false ∧ p.carried u = some h
    ∧ d.reading.link u
        ⟨t.store.offersOf (t.store.candidates u h.visible), none⟩
      ≠ d.reading.link u (t.store.scopeOf t.index.builtins u)

variable {builtins : List SourceFile} {s : Scene}

/-- What is neither named nor relinked is passed over, and is all that
is. -/
theorem passed_over (h : s.Regular builtins) (hdone : s.store.Done)
    (changes : List Change) {u : Uri} {d : Document}
    (hb : d.builtin = false) (hann : d.announces = false) :
    (s.prepared .calm changes).store.get? u = some d
      ∧ ¬ d.stage < .validated ↔
    u ∉ changes.map Change.uri ∧ u ∉ s.relinked .calm changes
      ∧ s.store.get? u = some d := by
  rw [store_prepared, Store.get?_alter]
  constructor
  · intro hcase
    rcases hcase with ⟨hd, hlt⟩
    obtain ⟨x, hx, hxd⟩ := Option.map_eq_some_iff.1 hd
    have hr : u ∉ s.relinked .calm changes := by
      intro hr
      rw [if_pos hr] at hxd
      exact hlt (hxd ▸ x.stage_sentBack_lt)
    rw [if_neg hr] at hxd
    subst hxd
    have hu : u ∉ changes.map Change.uri := fun hu =>
      hlt (due_changed .calm hu x hx hb)
    have hready := (h.changed changes).ready u x hx
    obtain ⟨scope, hbuilt⟩ := hready.built_iff.1 hlt
    have hord : (s.changed .calm changes).store.isProject u = false := by
      rw [Store.isProject_of_get? hx, Document.isProject_of_built hbuilt,
        hann]
    rw [s.isProject_changed .calm hu] at hord
    exact ⟨hu, hr, (get?_changed .calm hu hord).symm.trans hx⟩
  · intro hcase
    rcases hcase with ⟨hu, hr, hd⟩
    have hord : s.store.isProject u = false := by
      rw [Store.isProject_of_get? hd, hdone.isProject hd, hann]
    rw [get?_changed .calm hu hord, hd, Option.map_some, if_neg hr]
    exact ⟨rfl, hdone.complete hd⟩

variable {t : Scene} {scope : Uri → LinkScope} {u : Uri} {d : Document}

/-- What a build makes of a document. -/
theorem Finishes.get? (h : s.Finishes scope t) (u : Uri) :
    t.store.get? u = (s.store.get? u).map fun d =>
      if d.stage < .validated then d.built u (scope u) else d := by
  cases hd : s.store.get? u with
  | none =>
    rw [Option.map_none]
    exact Store.get?_none_of_uris h.completed.uris hd
  | some d =>
    rw [Option.map_some]
    split
    · next hlt =>
      exact h.completed.done u (Store.mem_pending.2 ⟨d, hd, hlt⟩) d hd
    · next hlt =>
      refine (h.completed.others u fun hu => ?_).trans hd
      obtain ⟨x, hx, hx'⟩ := Store.mem_pending.1 hu
      rw [hd] at hx
      exact hlt (Option.some.inj hx ▸ hx')

/-- Only an ordinary document is linked by a remembered horizon. -/
theorem announces_of_carried {hor : Horizon}
    (hd : s.store.get? u = some d) (hlt : d.stage < .validated)
    (h : s.carried u = some hor) : d.announces = false := by
  unfold carried at h
  split at h
  · cases h
  · next hany =>
    have hany := List.any_eq_false.1 (Bool.not_eq_true _ ▸ hany)
    rw [← Store.announces_of_get? hd]
    simpa using hany u (Store.mem_pending.2 ⟨d, hd, hlt⟩)

/-- The scope in which a build links an ordinary document. -/
theorem Finishes.scope_eq (h : s.Finishes scope t)
    (hd : s.store.get? u = some d) (hlt : d.stage < .validated)
    (hann : d.announces = false) :
    scope u = match s.carried u with
      | some h => ⟨t.store.offersOf (t.store.candidates u h.visible), none⟩
      | none => t.store.scopeOf s.index.builtins u := by
  have hu : u ∈ s.store.pending := Store.mem_pending.2 ⟨d, hd, hlt⟩
  have hget := h.completed.done u hu d hd
  have hord : (d.built u (scope u)).isProject = false :=
    (d.isProject_built u _).trans hann
  rw [h.ordinary u hu ((Store.announces_of_get? hd).trans hann)]
  unfold retained carried
  split
  · rw [Index.linkScope_of_right (Index.right_clear _ _) hget hord]
    rfl
  · rw [Index.linkScope_of_ordinary _ hget hord]
    cases hlook : s.index.horizons.lookup u with
    | none =>
      rw [Index.look_of_lookup_none hlook]
      rfl
    | some hor => rw [Index.look_of_lookup_some hlook]

/-- After an update every document leads where it would if it were
linked now, unless the update overlooks it or misleads it. -/
theorem settled_update_iff (h : s.Regular builtins)
    (hdone : s.store.Done) (changes : List Change) :
    let t := (s.update .calm changes).1
    t.store.Settled t.index.builtins ↔
      ∀ u, ¬ s.Overlooks changes u ∧ ¬ s.Misleads changes u := by
  obtain ⟨-, -, scope, hfinish⟩ := (h.prepared changes).build
  have hready := (h.prepared changes).ready
  have hbuiltins := build_builtins .calm hready.faithful
  have hpassed := fun u d => passed_over (u := u) (d := d) h hdone changes
  unfold Overlooks Misleads
  rw [update_eq]
  dsimp only
  generalize s.prepared .calm changes = p at *
  generalize (p.build .calm).1 = t at *
  constructor
  · refine fun hsettled u => ⟨?_, ?_⟩
    · intro hcase
      rcases hcase with ⟨hu, hr, d, hd, hb, hord, hne⟩
      have hann := (hdone.isProject hd).symm.trans hord
      obtain ⟨hp, hlt⟩ := (hpassed u d hb hann).2 ⟨hu, hr, hd⟩
      have hget := hfinish.get? u
      rw [hp, Option.map_some, if_neg hlt] at hget
      exact hne (hsettled u d hget hb hord)
    · intro hcase
      rcases hcase with ⟨d, hor, hd, hlt, hb, hcarried, hne⟩
      have hann := announces_of_carried hd hlt hcarried
      have hget := hfinish.get? u
      rw [hd, Option.map_some, if_pos hlt] at hget
      have hord := (d.isProject_built u (scope u)).trans hann
      have hcontent := Option.some.inj (hsettled u _ hget hb hord)
      rw [hfinish.scope_eq hd hlt hann, hcarried] at hcontent
      exact hne hcontent
  · intro hnone u d hd hb hord
    obtain ⟨hover, hmislead⟩ := hnone u
    rw [hfinish.get?] at hd
    obtain ⟨x, hx, rfl⟩ := Option.map_eq_some_iff.1 hd
    split at hord
    · next hlt =>
      have hann := (x.isProject_built u (scope u)).symm.trans hord
      rw [if_pos hlt] at hb ⊢
      refine congrArg some ?_
      show x.reading.link u (scope u)
        = x.reading.link u (t.store.scopeOf t.index.builtins u)
      rw [hfinish.scope_eq hx hlt hann, ← hbuiltins]
      cases hcarried : p.carried u with
      | none => rfl
      | some hor =>
        by_contra hne
        exact hmislead ⟨x, hor, hx, hlt, hb, hcarried, hne⟩
    · next hlt =>
      rw [if_neg hlt] at hb ⊢
      obtain ⟨sc, hbuilt⟩ := (hready u x hx).built_iff.1 hlt
      have hann := (Document.isProject_of_built hbuilt).symm.trans hord
      obtain ⟨hnot, hr, hx⟩ := (hpassed u x hb hann).1 ⟨hx, hlt⟩
      by_contra hne
      exact hover ⟨hnot, hr, x, hx, hb, hord, hne⟩

end Scene

namespace Workspace

/-- A workspace after an undisturbed update. -/
def updated (w : Workspace) (changes : List Change) : Workspace :=
  ((w.begin false).update .calm changes).1

theorem scene_updated (w : Workspace) (changes : List Change) :
    (w.updated changes).scene
      = ((w.begin false).scene.update .calm changes).1 := by
  unfold updated
  rw [scene_update, Scene.update_eq]

/-- After an update of a workspace that has been started undisturbed,
its ordinary documents are as in a rebuilt workspace exactly if the
update neither overlooks one of them nor misleads one. -/
theorem updated_agrees_iff (builtins : List SourceFile)
    (queue : List Change) (files : List SourceFile)
    (changes : List Change) :
    let w := (opened builtins queue files).1
    let s := (w.begin false).scene
    (w.updated changes).store.Agrees
        (rebuilt builtins (w.updated changes).store).store ↔
      ∀ u, ¬ s.Overlooks changes u ∧ ¬ s.Misleads changes u := by
  obtain ⟨hopened, hdone⟩ := regular_opened builtins queue files
  dsimp only
  generalize (opened builtins queue files).1 = w at *
  have hbegun : (w.begin false).scene.Regular builtins :=
    ⟨hopened.ready, hopened.founded, hopened.keyed, hopened.builtins, rfl⟩
  obtain ⟨hregular, hdone'⟩ := hbegun.update changes
  have hsettled := Scene.settled_update_iff hbegun hdone changes
  dsimp only at hsettled
  rw [← hsettled, hregular.builtins, store, scene_updated]
  exact agrees_rebuilt_iff hregular.founded hdone'

/-- Where the references of a document lead, in order. -/
def targetsOf (w : Workspace) (u : Uri) : List (Option Uri) :=
  match (w.store.get? u).bind (·.content) with
  | some (.ordinary b) => b.references.map (·.target)
  | _ => []

theorem targetsOf_of_agrees {w w' : Workspace}
    (h : w.store.Agrees w'.store) {u : Uri}
    (hb : w.store.isBuiltin u = false) (hne : w.targetsOf u ≠ []) :
    w'.targetsOf u = w.targetsOf u := by
  unfold targetsOf at hne ⊢
  unfold Store.isBuiltin at hb
  cases hd : w.store.get? u with
  | none =>
    rw [hd] at hne
    exact absurd rfl hne
  | some d =>
    rw [hd] at hne hb
    have hord : d.isProject = false := by
      unfold Document.isProject Document.descriptor?
      rcases hc : d.content with _ | (_ | b)
      · rfl
      · simp [hc] at hne
      · rfl
    obtain ⟨d', hd', hcontent, -⟩ := h u d hd hb hord
    rw [hd', Option.bind_some, Option.bind_some, hcontent]

/-- A project that depends on one that is not there, a document that
lies where the missing one would have it, and two documents of which
one leads to the other. -/
def joining : List SourceFile :=
  [⟨Uri.ofString "/q/src/x.sysw", "def A;"⟩,
    ⟨Uri.ofString "/p/P.sysw",
      "project P \x7b depends Q; source \"src\"; \x7d"⟩,
    ⟨Uri.ofString "/p/src/d.sysw", "def A;"⟩,
    ⟨Uri.ofString "/p/src/e.sysw", "ref A;"⟩]

/-- The missing project. -/
def joiner : SourceFile :=
  ⟨Uri.ofString "/q/Q.sysw", "project Q \x7b source \"src\"; \x7d"⟩

/-- A document that leads to its neighbour is not relinked when the
missing project comes. -/
theorem outcome_joined :
    let w := (started [] joining).1.updated [.edit joiner]
    (w.store.survivors, w.store.isBuiltin (Uri.ofString "/p/src/e.sysw"),
      w.targetsOf (Uri.ofString "/p/src/e.sysw"))
        = (joining ++ [joiner], false,
          [some (Uri.ofString "/p/src/d.sysw")]) := by
  decide +kernel

/-- If the project is there from the start, the document leads into
it. -/
theorem targetsOf_joined :
    (started [] (joining ++ [joiner])).1.targetsOf
      (Uri.ofString "/p/src/e.sysw")
        = [some (Uri.ofString "/q/src/x.sysw")] := by
  decide +kernel

/-- An update that brings a project can leave a document behind. -/
theorem not_agrees_joined :
    let w := (started [] joining).1.updated [.edit joiner]
    ¬ w.store.Agrees (rebuilt [] w.store).store := by
  intro w hagrees
  obtain ⟨hsurvivors, hb, htargets⟩ := Prod.mk.inj outcome_joined
    |>.imp_right Prod.mk.inj
  have hsame := targetsOf_of_agrees hagrees hb (by rw [htargets]; simp)
  rw [htargets, rebuilt, hsurvivors, targetsOf_joined] at hsame
  exact absurd hsame (by decide)

end Workspace

end Purview

/-
What it comes to if a batch gives one document several texts. Behind the
update only the last of them is left, and what has been built has been
built in the scope that the finished documents give
(`get?_build_of_current`). So to a document that is built it is all the
same whether the other texts were in the batch, and what can differ is
who is built.

That differs for one reason. A document that is not loaded sends nothing
back when it comes; a second text finds it loaded and sends back the
projects that depend on its owner. They are checked once more. But while
they are not linked, a search looks no further than to them, and may
pass over a document that sees the new one through them
(`not_matches_lastEdits`). The two batches come to the same exactly if
every document that one of them alone has built comes out as it was
(`matches_lastEdits_iff`); so they do if all that is given two texts has
been loaded, since then both send the same back (`mem_reworked_iff`).
-/
import Mathlib.Data.List.Induction
import Purview.Proofs.Anchored
import Purview.Proofs.Notified

namespace Purview

-- ============================================================ last texts

/-- A set takes in a list as it takes in the members of the list. -/
theorem Distinct.union_ofList {α : Type} [DecidableEq α] (xs ys : List α) :
    Distinct.union xs (Distinct.ofList ys) = Distinct.union xs ys := by
  induction ys using List.reverseRecOn with
  | nil => rfl
  | append_singleton ys y ih =>
    have hstep : ∀ zs : List α, Distinct.union zs (ys ++ [y])
        = Distinct.insert (Distinct.union zs ys) y :=
      fun zs => List.foldl_append
    rw [hstep, ← ih, Distinct.ofList, hstep]
    change Distinct.union xs (Distinct.insert (Distinct.ofList ys) y) = _
    unfold Distinct.insert
    split
    · next hy =>
      rw [if_pos (Distinct.mem_union.2 (.inr hy))]
    · exact List.foldl_append

/-- Of the texts that are given to one document the last, where the
document is first named. -/
def lastEdits (edits : List SourceFile) : List SourceFile :=
  (Distinct.ofList (edits.map (·.uri))).filterMap fun u =>
    (lastText edits u).map (SourceFile.mk u)

variable {edits : List SourceFile}

theorem uris_lastEdits (edits : List SourceFile) :
    (lastEdits edits).map (·.uri) = Distinct.ofList (edits.map (·.uri)) := by
  unfold lastEdits
  rw [List.map_filterMap]
  refine (List.filterMap_congr fun u hu => ?_).trans List.filterMap_some
  obtain ⟨text, htext⟩ := lastText_of_mem hu
  rw [htext]
  rfl

theorem mem_uris_lastEdits {u : Uri} :
    u ∈ (lastEdits edits).map (·.uri) ↔ u ∈ edits.map (·.uri) := by
  rw [uris_lastEdits, Distinct.mem_ofList]

theorem nodup_uris_lastEdits (edits : List SourceFile) :
    ((lastEdits edits).map (·.uri)).Nodup := by
  rw [uris_lastEdits]
  exact Distinct.nodup_ofList _

theorem mem_lastEdits {file : SourceFile} (h : file ∈ lastEdits edits) :
    file ∈ edits := by
  obtain ⟨u, -, hu⟩ := List.mem_filterMap.1 h
  obtain ⟨text, htext, rfl⟩ := Option.map_eq_some_iff.1 hu
  obtain ⟨x, hx, rfl⟩ := Option.map_eq_some_iff.1 htext
  have huri := List.find?_some hx
  rw [decide_eq_true_eq] at huri
  subst huri
  exact List.mem_reverse.1 (List.mem_of_find?_eq_some hx)

theorem lastText_lastEdits (edits : List SourceFile) (u : Uri) :
    lastText (lastEdits edits) u = lastText edits u := by
  cases htext : lastText edits u with
  | some text =>
    have hmem : ⟨u, text⟩ ∈ lastEdits edits :=
      List.mem_filterMap.2 ⟨u, mem_of_lastText htext, by rw [htext]; rfl⟩
    exact lastText_of_nodup (nodup_uris_lastEdits edits) hmem
  | none =>
    cases htext' : lastText (lastEdits edits) u with
    | none => rfl
    | some text =>
      have hmem := mem_uris_lastEdits.1
        (Distinct.mem_ofList.1 (mem_of_lastText htext'))
      exact absurd (Distinct.mem_ofList.2 hmem) (notMem_of_lastText htext)

theorem uri_edits (edits : List SourceFile) :
    (edits.map Change.edit).map Change.uri = edits.map (·.uri) := by
  rw [List.map_map]
  rfl

/-- The documents that are named stay the same. -/
theorem uris_edits_lastEdits (edits : List SourceFile) :
    Distinct.ofList (((lastEdits edits).map Change.edit).map Change.uri)
      = Distinct.ofList ((edits.map Change.edit).map Change.uri) := by
  rw [uri_edits, uri_edits, uris_lastEdits,
    Distinct.ofList_of_nodup (Distinct.nodup_ofList _)]

/-- Edits one after another leave the last text of each document. -/
theorem Change.foldl_effect_edits (fixed : Uri → Bool)
    (edits : List SourceFile) (texts : Uri → Option String) (u : Uri) :
    (edits.map Change.edit).foldl (Change.effect fixed) texts u
      = if fixed u then texts u else (lastText edits u).or (texts u) := by
  cases hu : fixed u with
  | true => exact Change.foldl_effect_fixed fixed _ texts hu
  | false =>
    rw [if_neg Bool.false_ne_true]
    induction edits generalizing texts with
    | nil => rfl
    | cons file edits ih =>
      rw [List.map_cons, List.foldl_cons, ih, lastText_cons, Option.or_assoc]
      congr 1
      unfold Change.effect Change.uri
      by_cases hfile : u = file.uri
      · simp [hfile, hfile ▸ hu, Change.text?]
      · simp [hfile]

theorem Scene.ordered_edits (edits : List SourceFile) :
    Scene.ordered (edits.map Change.edit) = edits.map Change.edit := by
  have hedit : ∀ c ∈ edits.map Change.edit, c.isRemoval = false := by
    intro c hc
    obtain ⟨file, -, rfl⟩ := List.mem_map.1 hc
    rfl
  unfold Scene.ordered
  rw [List.filter_eq_nil_iff.2 fun c hc => by simp [hedit c hc],
    List.filter_eq_self.2 fun c hc => by simp [hedit c hc], List.nil_append]

namespace Store

variable {builtins : List SourceFile} {s t : Store}

/-- Stores that were founded alike and have one table of texts have the
texts of all documents in common, builtins included. -/
theorem Founded.text_congr (hs : s.Founded builtins)
    (ht : t.Founded builtins) (h : t.texts = s.texts) (v : Uri) :
    (t.get? v).map (·.text) = (s.get? v).map (·.text) := by
  cases hlast : lastText builtins v with
  | some text =>
    have hfixed : ∀ {r : Store}, r.Founded builtins →
        (r.get? v).map (·.text) = some text := by
      intro r hr
      obtain ⟨later, hlater⟩ := hr.base
      have hmem : v ∈ r.uris := by
        rw [hlater]
        exact List.mem_append_left _ (mem_of_lastText hlast)
      obtain ⟨d, hd⟩ :=
        Option.isSome_iff_exists.1 ((r.isSome_get? v).2 hmem)
      rw [hd, Option.map_some, hr.text v d text hd hlast]
    rw [hfixed hs, hfixed ht]
  | none =>
    have hfree : ∀ {r : Store}, r.Founded builtins →
        (r.get? v).map (·.text) = r.texts v := by
      intro r hr
      cases hd : r.get? v with
      | none => exact (texts_of_none hd).symm
      | some d =>
        have hb : d.builtin = false := by
          rw [← Bool.not_eq_true, hr.marked v d hd]
          exact notMem_of_lastText hlast
        rw [texts_of_some hd, hb]
        rfl
    rw [hfree hs, hfree ht, h]

end Store

namespace Scene

variable {builtins : List SourceFile} {s : Scene}

/-- Edits one after another bring their documents in. -/
theorem uris_foldl_edits (host : Host) (edits : List SourceFile)
    (s : Scene) :
    ((edits.map Change.edit).foldl (fun s c => (s.apply host c).1)
      s).store.uris = Distinct.union s.store.uris (edits.map (·.uri)) := by
  induction edits generalizing s with
  | nil => rfl
  | cons file edits ih =>
    rw [List.map_cons, List.foldl_cons, ih, uris_apply]
    rfl

/-- A scene after an undisturbed update that makes some edits. -/
def edited (s : Scene) (edits : List SourceFile) : Scene :=
  (s.update .calm (edits.map .edit)).1

/-- The documents that such an update finds pending when it comes to
build. -/
def reworked (s : Scene) (edits : List SourceFile) : List Uri :=
  (s.prepared .calm (edits.map .edit)).store.pending

theorem edited_eq (s : Scene) (edits : List SourceFile) :
    s.edited edits
      = ((s.prepared .calm (edits.map .edit)).build .calm).1 := rfl

theorem Regular.edited (h : s.Regular builtins) (edits : List SourceFile) :
    (s.edited edits).Regular builtins
      ∧ (s.edited edits).store.Done := by
  unfold Scene.edited
  exact h.update (edits.map .edit)

theorem isBuiltin_edited (hs : s.store.Faithful)
    (edits : List SourceFile) :
    (s.edited edits).store.isBuiltin = s.store.isBuiltin := by
  unfold edited
  exact (texts_update .calm hs (edits.map .edit)).2

/-- The table of texts behind some edits. -/
theorem texts_edited (hs : s.store.Faithful) (edits : List SourceFile) :
    (s.edited edits).store.texts = fun u =>
      if s.store.isBuiltin u then s.store.texts u
      else (lastText edits u).or (s.store.texts u) := by
  funext u
  unfold edited
  rw [(texts_update .calm hs (edits.map .edit)).1, ordered_edits,
    Change.foldl_effect_edits]

theorem changed_edits (host : Host) (s : Scene) (edits : List SourceFile) :
    s.changed host (edits.map Change.edit)
      = (edits.map Change.edit).foldl (fun s c => (s.apply host c).1)
        (s.relinkCandidates (Distinct.ofList
          ((edits.map Change.edit).map Change.uri))).1 := by
  unfold changed
  rw [applyAll_eq, ordered_edits]

theorem uris_edited (h : s.Regular builtins) (edits : List SourceFile) :
    (s.edited edits).store.uris
      = Distinct.union s.store.uris (edits.map (·.uri)) := by
  obtain ⟨-, -, scope, hfinish⟩ := (h.prepared (edits.map .edit)).build
  rw [edited_eq, hfinish.completed.uris, store_prepared, Store.uris_alter,
    changed_edits, uris_foldl_edits]
  rfl

/-- The same documents with the same texts are left, in the same order,
if only the last text of each is given. -/
theorem sameRoster_lastEdits (h : s.Regular builtins)
    (edits : List SourceFile) :
    (s.edited edits).store.SameRoster
      (s.edited (lastEdits edits)).store := by
  refine ⟨?_, Store.Founded.text_congr (h.edited _).1.founded
    (h.edited _).1.founded ?_⟩
  · rw [uris_edited h, uris_edited h, uris_lastEdits,
      Distinct.union_ofList]
  · rw [texts_edited h.ready.faithful, texts_edited h.ready.faithful]
    simp only [lastText_lastEdits]

end Scene

-- ====================================================== what is built

namespace Workspace

theorem scopeAt_congr (s : Store) (builtins : List Uri) (u : Uri)
    {d d' : Document} (h : d'.text = d.text) :
    scopeAt s builtins u d' = scopeAt s builtins u d := by
  unfold scopeAt Document.announces
  rw [h]

/-- Complete documents of one roster give the same scopes. -/
theorem scopeAt_of_sameRoster {s t : Store} (h : s.SameRoster t)
    (hs : s.Done) (ht : t.Done) (builtins : List Uri) (u : Uri)
    (d : Document) : scopeAt t builtins u d = scopeAt s builtins u d := by
  have hprojects : t.projects = s.projects := (h.layout hs ht).2
  unfold scopeAt
  rw [hprojects, h.scopeOf hs ht]

end Workspace

open Workspace (scopeAt scopeAt_congr scopeAt_of_sameRoster)

/-- What has been built tells nothing of how often its text has been
replaced. -/
theorem Document.built_of_text {d d' : Document} (htext : d'.text = d.text)
    (hb : d'.builtin = d.builtin) (u : Uri) (scope : LinkScope) :
    d'.built u scope = { d.built u scope with version := d'.version } :=
  Document.built_congr (d := { d with version := d'.version })
    ⟨htext, rfl, hb⟩ u scope

namespace Scene

variable {builtins : List SourceFile} {s p : Scene}

/-- A build that makes and unmakes no project builds every document in
the scope that the finished documents give, if the index is right. -/
theorem get?_build_of_current (h : p.Regular builtins)
    (hcurrent : p.store.Current) (hright : p.Right) (u : Uri) :
    let t := (p.build .calm).1
    t.store.get? u = (p.store.get? u).map fun d =>
      if d.stage < .validated then
        d.built u (scopeAt t.store p.index.builtins u d)
      else d := by
  intro t
  obtain ⟨⟨scope, hfinish, hkept, -⟩, -⟩ :=
    build_scopes h.ready h.withdrawn h.keyed
  rw [hfinish.get?]
  refine Option.map_congr fun d hd => ?_
  split
  · next hlt =>
    congr 1
    unfold scopeAt
    cases hann : d.announces with
    | true =>
      have hannounces := (Store.announces_of_get? hd).trans hann
      have hplan : p.first.scene.store.plan = t.store.plan :=
        (plan_first h.ready hcurrent).trans
          (hfinish.plan hcurrent).symm
      rw [hkept u (mem_kept.2 ⟨Store.mem_pending.2 ⟨d, hd, hlt⟩,
        (hcurrent.isProject u).trans hannounces, hannounces⟩),
        Projects.facts_of_plan hplan]
      rfl
    | false =>
      rw [hfinish.scope_eq hd hlt hann]
      cases hcarried : p.carried u with
      | none => rfl
      | some hor =>
        rw [carried_of_current h.ready.faithful hcurrent hright hcarried]
        rfl
  · rfl

end Scene

-- ========================================================== plain edits

/-- None of some edits names a project, and none of the texts describes
one. -/
def Store.Plain (s : Store) (edits : List SourceFile) : Prop :=
  ∀ file ∈ edits, s.isProject file.uri = false
    ∧ (Document.read file.text).announces = false

theorem Store.Plain.lastEdits {s : Store} (h : s.Plain edits) :
    s.Plain (lastEdits edits) :=
  fun file hfile => h file (mem_lastEdits hfile)

/-- A plan tells who is a project. -/
theorem Store.isProject_of_plan {s t : Store} (h : t.plan = s.plan)
    (u : Uri) : t.isProject u = s.isProject u := by
  rw [Bool.eq_iff_iff, isProject_iff, isProject_iff,
    Projects.uris_of_plan h]

namespace Scene

variable {builtins : List SourceFile} {s : Scene}

/-- A plain edit moves no plan. -/
theorem plan_apply_plain (host : Host) {file : SourceFile}
    (hcurrent : s.store.Current) (hord : s.store.isProject file.uri = false)
    (hann : (Document.read file.text).announces = false) :
    (s.apply host (.edit file)).1.store.plan = s.store.plan
    ∧ (s.apply host (.edit file)).1.store.Current := by
  have hordinary : Change.isOrdinary s.store (.edit file) = true := by
    simp only [Change.isOrdinary]
    cases hd : s.store.get? file.uri with
    | none => simp [hann]
    | some d =>
      rw [Store.isProject_of_get? hd] at hord
      simp [hann, hord]
  obtain ⟨named, back, hspares, -⟩ := spares_apply host (.refl s.store)
    List.not_mem_nil hordinary
  exact ⟨hspares.plan, hspares.current hcurrent⟩

/-- Plain edits one after another move no plan. -/
theorem plan_foldl_plain (host : Host) (edits : List SourceFile)
    {s : Scene} (hcurrent : s.store.Current) (h : s.store.Plain edits) :
    let t := (edits.map Change.edit).foldl (fun s c => (s.apply host c).1) s
    t.store.plan = s.store.plan ∧ t.store.Current := by
  induction edits generalizing s with
  | nil => exact ⟨rfl, hcurrent⟩
  | cons file edits ih =>
    obtain ⟨hord, hann⟩ := h file List.mem_cons_self
    obtain ⟨hplan, hcurrent'⟩ := plan_apply_plain host hcurrent hord hann
    obtain ⟨hplan', hlast⟩ := ih hcurrent' fun x hx => by
      rw [Store.isProject_of_plan hplan]
      exact h x (List.mem_cons_of_mem file hx)
    exact ⟨hplan'.trans hplan, hlast⟩

/-- A batch of plain edits moves no plan up to its build. -/
theorem plan_prepared_plain (hdone : s.store.Done)
    (h : s.store.Plain edits) :
    (s.changed .calm (edits.map .edit)).store.plan = s.store.plan
    ∧ (s.prepared .calm (edits.map .edit)).store.Current := by
  have hfold := plan_foldl_plain .calm edits (s := (s.relinkCandidates
    (Distinct.ofList ((edits.map Change.edit).map Change.uri))).1)
    hdone.current h
  rw [← changed_edits] at hfold
  exact ⟨hfold.1, current_prepared hfold.2⟩

/-- What an update of plain edits makes of a document. -/
theorem get?_edited (h : s.Regular builtins) (hdone : s.store.Done)
    (hright : s.Right) (hplain : s.store.Plain edits) (u : Uri) :
    (s.edited edits).store.get? u
      = ((s.prepared .calm (edits.map .edit)).store.get? u).map fun d =>
        if d.stage < .validated then
          d.built u (scopeAt (s.edited edits).store s.index.builtins u d)
        else d := by
  have hregular := h.prepared (edits.map .edit)
  have hget := get?_build_of_current hregular
    (plan_prepared_plain hdone hplain).2 (right_prepared .calm hright _) u
  rw [hregular.builtins, ← h.builtins] at hget
  rw [edited_eq]
  exact hget

/-- What it makes of one that it does not name. -/
theorem get?_edited_unnamed (h : s.Regular builtins) (hdone : s.store.Done)
    (hright : s.Right) (hplain : s.store.Plain edits) {u : Uri}
    (hu : u ∉ edits.map (·.uri)) :
    (s.edited edits).store.get? u = (s.store.get? u).map fun d =>
      if u ∈ s.reworked edits then
        d.built u (scopeAt (s.edited edits).store s.index.builtins u d)
      else d := by
  have hspared := s.spared_prepared .calm (uri_edits edits ▸ hu)
  rw [get?_edited h hdone hright hplain]
  generalize (s.edited edits).store = t
  unfold reworked
  cases hd : s.store.get? u with
  | none =>
    rw [hd] at hspared
    rcases hspared with hp | hp <;> rw [hp]
    · rw [Option.map_none, Option.map_none]
    · rw [Option.map_none, Option.map_none, Option.map_none]
  | some d =>
    rw [hd] at hspared
    have hcomplete := hdone.complete hd
    rcases hspared with hp | hp
    · rw [hp, Option.map_some, Option.map_some, if_neg hcomplete,
        if_neg (mt (Store.pending_iff hp).1 hcomplete)]
    · rw [Option.map_some] at hp
      rw [hp, Option.map_some, Option.map_some,
        if_pos d.stage_sentBack_lt,
        if_pos ((Store.pending_iff hp).2 d.stage_sentBack_lt),
        Document.built_congr d.alike_sentBack,
        scopeAt_congr _ _ _ d.alike_sentBack.text]

/-- An ordinary builtin outlasts every batch. -/
theorem get?_changed_builtin (host : Host) {u : Uri} {d : Document}
    (hd : s.store.get? u = some d) (hb : d.builtin = true)
    (hord : d.isProject = false) (changes : List Change) :
    (s.changed host changes).store.get? u = some d := by
  refine applyAll_induction host (s := (s.relinkCandidates _).1)
    (P := fun t => t.store.get? u = some d) hd fun t c _ ht => ?_
  rw [get?_apply]
  split
  · next huri =>
    subst huri
    exact Store.revised_of_builtin ht hb
  · next hne =>
    have hnot : u ∉ t.store.recalled c := by
      intro hmem
      have hproject := Store.isProject_of_mem_recalled hne hmem
      rw [Store.isProject_of_get? ht, hord] at hproject
      cases hproject
    rw [ht, Option.map_some, if_neg hnot]

/-- What an update of plain edits makes of a document that it names: a
builtin stays, and any other is built. -/
theorem get?_edited_named (h : s.Regular builtins) (hdone : s.store.Done)
    (hright : s.Right) (hplain : s.store.Plain edits) {u : Uri}
    (hu : u ∈ edits.map (·.uri)) {d : Document}
    (hd : (s.edited edits).store.get? u = some d) :
    d.builtin = true ∧ s.store.get? u = some d
    ∨ d.builtin = false ∧ d = d.built u
      (scopeAt (s.edited edits).store s.index.builtins u d) := by
  have hget := get?_edited h hdone hright hplain u
  have hbuiltin : d.builtin = s.store.isBuiltin u := by
    rw [← Store.isBuiltin_of_some hd, isBuiltin_edited h.ready.faithful]
  -- who is named is not relinked
  have hrelinked : u ∉ s.relinked .calm (edits.map .edit) := by
    intro hmem
    refine (isProject_of_mem_relinked .calm hmem).1 ?_
    rwa [uri_edits]
  have hprepared : (s.prepared .calm (edits.map .edit)).store.get? u
      = (s.changed .calm (edits.map .edit)).store.get? u := by
    rw [get?_prepared]
    simp [hrelinked]
  rw [hd, hprepared] at hget
  cases hb : d.builtin with
  | true =>
    refine .inl ⟨rfl, ?_⟩
    obtain ⟨y, hy, hyb⟩ := (Option.any_eq_true _ _).1
      (hbuiltin.symm.trans hb)
    obtain ⟨file, hfile, rfl⟩ := List.mem_map.1 hu
    have hord := (hplain file hfile).1
    rw [Store.isProject_of_get? hy] at hord
    rw [get?_changed_builtin .calm hy hyb hord, Option.map_some,
      if_neg (hdone.complete hy)] at hget
    rw [hy, hget]
  | false =>
    refine .inr ⟨rfl, ?_⟩
    obtain ⟨x, hx, hxd⟩ := Option.map_eq_some_iff.1 hget.symm
    have hxb : x.builtin = false := by
      rw [← hb, ← hxd]
      split <;> rfl
    have hlt : x.stage < .validated :=
      due_changed .calm (uri_edits edits ▸ hu) x hx hxb
    rw [if_pos hlt] at hxd
    rw [← hxd, Document.built_congr (x.alike_built u _),
      scopeAt_congr _ _ _ (x.alike_built u _).text]

end Scene

-- ===================================================== one text for each

theorem Document.eq_of_version {d d' : Document} {n : UInt32}
    (h : d' = { d with version := n }) (hversion : d'.version = d.version) :
    d' = d := by
  subst h
  obtain rfl : n = d.version := hversion
  rfl

/-- The same documents in the same order, apart from how often their
texts have been replaced. -/
structure Store.Matches (s t : Store) : Prop where
  uris : t.uris = s.uris
  same : ∀ u d, s.get? u = some d →
    ∃ n, t.get? u = some { d with version := n }

/-- Two stores that come of one, with some documents built anew in each.
They match exactly if each document that has been built in one of them
only comes out as it was. -/
theorem Store.matches_iff {s full once : Store} {named us vs : List Uri}
    (huris : once.uris = full.uris)
    (hnamed : ∀ u ∈ named, ∀ d, full.get? u = some d →
      ∃ n, once.get? u = some { d with version := n })
    (hleft : ∀ u ∉ named, ∃ scope : Document → LinkScope,
      (full.get? u = (s.get? u).map fun d =>
        if u ∈ us then d.built u (scope d) else d)
      ∧ once.get? u = (s.get? u).map fun d =>
        if u ∈ vs then d.built u (scope d) else d) :
    full.Matches once ↔ ∀ u ∉ named, ¬(u ∈ us ↔ u ∈ vs) →
      full.get? u = s.get? u ∧ once.get? u = s.get? u := by
  constructor
  · intro hmatch u hu hone
    obtain ⟨scope, hf, ho⟩ := hleft u hu
    cases hd : s.get? u with
    | none =>
      rw [hd] at hf ho
      exact ⟨hf, ho⟩
    | some d =>
      rw [hd, Option.map_some] at hf ho
      -- neither has replaced the text
      have hversion : ∀ ws : List Uri,
          (if u ∈ ws then d.built u (scope d) else d).version
            = d.version := by
        intro ws
        split <;> rfl
      obtain ⟨n, hn⟩ := hmatch.same u _ hf
      have hsame := Document.eq_of_version
        (Option.some.inj (ho.symm.trans hn))
        ((hversion vs).trans (hversion us).symm)
      have hkept : (if u ∈ us then d.built u (scope d) else d) = d := by
        by_cases hmem : u ∈ us
        · rw [← hsame, if_neg fun hmem' => hone (iff_of_true hmem hmem')]
        · exact if_neg hmem
      rw [hf, ho, hsame, hkept]
      exact ⟨rfl, rfl⟩
  · intro hsame
    refine ⟨huris, fun u d hd => ?_⟩
    by_cases hu : u ∈ named
    · exact hnamed u hu d hd
    · refine ⟨d.version, ?_⟩
      show once.get? u = some d
      rw [← hd]
      by_cases hone : u ∈ us ↔ u ∈ vs
      · obtain ⟨scope, hf, ho⟩ := hleft u hu
        simp only [hone] at hf
        exact ho.trans hf.symm
      · obtain ⟨hf, ho⟩ := hsame u hu hone
        exact ho.trans hf.symm

namespace Scene

variable {builtins : List SourceFile} {s : Scene}

/-- A document that a batch names comes out the same. -/
theorem named_lastEdits (h : s.Regular builtins) (hdone : s.store.Done)
    (hright : s.Right) (hplain : s.store.Plain edits) {u : Uri}
    (hu : u ∈ edits.map (·.uri)) {d : Document}
    (hd : (s.edited edits).store.get? u = some d) :
    ∃ n, (s.edited (lastEdits edits)).store.get? u
      = some { d with version := n } := by
  have hroster := sameRoster_lastEdits h edits
  have htext := hroster.text u
  rw [hd] at htext
  obtain ⟨d', hd', htext⟩ := Option.map_eq_some_iff.1 htext
  have hb : d'.builtin = d.builtin := by
    rw [← Store.isBuiltin_of_some hd, ← Store.isBuiltin_of_some hd',
      isBuiltin_edited h.ready.faithful,
      isBuiltin_edited h.ready.faithful]
  have hcase := get?_edited_named h hdone hright hplain hu hd
  have hcase' := get?_edited_named h hdone hright hplain.lastEdits
    (mem_uris_lastEdits.2 hu) hd'
  rw [hb] at hcase'
  rcases hcase with ⟨hfixed, hkept⟩ | ⟨hfree, hbuilt⟩
  · have hkept' := (hcase'.resolve_right fun hc => by
      rw [hc.1] at hfixed
      cases hfixed).2
    obtain rfl := Option.some.inj (hkept.symm.trans hkept')
    exact ⟨_, hd'⟩
  · have hbuilt' := (hcase'.resolve_left fun hc => by
      rw [hc.1] at hfree
      cases hfree).2
    refine ⟨d'.version, ?_⟩
    rw [hd', hbuilt', scopeAt_congr _ _ _ htext,
      scopeAt_of_sameRoster hroster (h.edited _).2 (h.edited _).2,
      Document.built_of_text htext hb, ← hbuilt]

/-- Giving every document its last text only comes to the same exactly if
whatever one of the two updates builds alone comes out as it was. -/
theorem matches_lastEdits_iff (h : s.Regular builtins)
    (hdone : s.store.Done) (hright : s.Right)
    (hplain : s.store.Plain edits) :
    (s.edited edits).store.Matches (s.edited (lastEdits edits)).store ↔
      ∀ u ∉ edits.map (·.uri),
        ¬(u ∈ s.reworked edits ↔ u ∈ s.reworked (lastEdits edits)) →
        (s.edited edits).store.get? u = s.store.get? u
        ∧ (s.edited (lastEdits edits)).store.get? u = s.store.get? u := by
  have hroster := sameRoster_lastEdits h edits
  refine Store.matches_iff hroster.uris
    (fun u hu d hd => named_lastEdits h hdone hright hplain hu hd)
    fun u hu => ⟨_, get?_edited_unnamed h hdone hright hplain hu, ?_⟩
  rw [get?_edited_unnamed h hdone hright hplain.lastEdits
    (mem_uris_lastEdits.not.2 hu)]
  simp only [scopeAt_of_sameRoster hroster (h.edited _).2 (h.edited _).2]

end Scene

-- ==================================================== what is sent back

/-- A plain edit sends back what dropping the document would, and that
hangs on the plan. -/
theorem Store.recalled_plain {s t : Store} {file : SourceFile}
    (hplan : t.plan = s.plan) (hbuiltin : t.isBuiltin = s.isBuiltin)
    (hloaded : file.uri ∈ t.uris ↔ file.uri ∈ s.uris)
    (hord : s.isProject file.uri = false)
    (hann : (Document.read file.text).announces = false) :
    t.recalled (.edit file) = s.recalled (.removal file.uri) := by
  have hord' := (isProject_of_plan hplan file.uri).trans hord
  have hremoval : s.recalled (.removal file.uri)
      = if s.isBuiltin file.uri then [] else s.concerned file.uri := rfl
  rw [hremoval]
  unfold concerned
  cases hx : t.get? file.uri with
  | none =>
    have hd : s.get? file.uri = none := by
      rw [get?_eq_none, ← hloaded, ← get?_eq_none]
      exact hx
    have hread : (Document.read file.text).isProject = false := hann
    rw [recalled_of_none hx, hread, hd]
    simp
  | some x =>
    have hmem := hloaded.1 ((t.isSome_get? _).1 (by rw [hx]; rfl))
    obtain ⟨d, hd⟩ :=
      Option.isSome_iff_exists.1 ((s.isSome_get? _).2 hmem)
    have hb : s.isBuiltin file.uri = x.builtin := by
      rw [← hbuiltin, isBuiltin_of_some hx]
    rw [isProject_of_get? hd] at hord
    rw [isProject_of_get? hx] at hord'
    rw [hb, hd]
    cases hxb : x.builtin with
    | true => rw [recalled_of_builtin (c := .edit file) hx hxb]; rfl
    | false =>
      rw [recalled_of_loaded (c := .edit file) hx hxb]
      unfold concerned
      simp only [Change.uri, hx, hord, hord', Bool.false_eq_true, if_false]
      exact Projects.affectedByDocument_of_plan hplan file.uri

/-- The projects that some plain edits send back, if none of them finds a
document loaded that has not been so from the start. -/
def Store.stirred (s : Store) (edits : List SourceFile) : List Uri :=
  edits.flatMap fun file => s.recalled (.removal file.uri)

theorem Store.mem_stirred_lastEdits {s : Store} {v : Uri} :
    v ∈ s.stirred (lastEdits edits) ↔ v ∈ s.stirred edits := by
  have hmem : ∀ edits : List SourceFile, v ∈ s.stirred edits ↔
      ∃ u ∈ edits.map (·.uri), v ∈ s.recalled (.removal u) := by
    intro edits
    unfold stirred
    simp only [List.mem_flatMap, List.mem_map, exists_exists_and_eq_and]
  rw [hmem, hmem, uris_lastEdits]
  simp only [Distinct.mem_ofList]

namespace Scene

variable {builtins : List SourceFile} {s : Scene}

/-- What plain edits leave of a document that they do not name, as long
as only loaded documents are given several texts. -/
theorem get?_foldl_plain (host : Host) {s : Store}
    (edits : List SourceFile) (hplain : s.Plain edits)
    (hagain : edits.Pairwise fun a b => a.uri = b.uri → a.uri ∈ s.uris)
    {t : Scene} (hplan : t.store.plan = s.plan)
    (hbuiltin : t.store.isBuiltin = s.isBuiltin)
    (hcurrent : t.store.Current)
    (hloaded : ∀ file ∈ edits, file.uri ∈ t.store.uris ↔ file.uri ∈ s.uris)
    {v : Uri} (hv : v ∉ edits.map (·.uri)) :
    ((edits.map Change.edit).foldl (fun s c => (s.apply host c).1)
      t).store.get? v = (t.store.get? v).map fun d =>
        if v ∈ s.stirred edits then d.sentBack else d := by
  induction edits generalizing t with
  | nil => simp [Store.stirred]
  | cons file edits ih =>
    obtain ⟨hne, hv⟩ := List.ne_and_not_mem_of_not_mem_cons hv
    have hne : v ≠ (Change.edit file).uri := hne
    obtain ⟨hfirst, hagain⟩ := List.pairwise_cons.1 hagain
    obtain ⟨hord, hann⟩ := hplain file List.mem_cons_self
    obtain ⟨hplan', hcurrent'⟩ := plan_apply_plain host hcurrent
      ((Store.isProject_of_plan hplan _).trans hord) hann
    have hloaded' : ∀ x ∈ edits,
        x.uri ∈ (t.apply host (.edit file)).1.store.uris
          ↔ x.uri ∈ s.uris := by
      intro x hx
      rw [uris_apply]
      dsimp only
      rw [Distinct.mem_insert, hloaded x (List.mem_cons_of_mem file hx),
        or_iff_left_iff_imp]
      exact fun heq => heq ▸ hfirst x hx heq.symm
    rw [List.map_cons, List.foldl_cons,
      ih (fun x hx => hplain x (List.mem_cons_of_mem file hx)) hagain
        (hplan'.trans hplan) ((texts_apply host t _).2.trans hbuiltin)
        hcurrent' hloaded' hv,
      get?_apply, if_neg hne, Option.map_map,
      Store.recalled_plain hplan hbuiltin
        (hloaded file List.mem_cons_self) hord hann]
    refine Option.map_congr fun d _ => ?_
    simp only [Function.comp_apply, Store.stirred, List.flatMap_cons,
      List.mem_append]
    by_cases hhead : v ∈ s.recalled (.removal file.uri)
    · simp [hhead]
    · simp [hhead]

variable (h : s.Regular builtins) (hdone : s.store.Done)
  (hplain : s.store.Plain edits)
  (hagain : edits.Pairwise fun a b => a.uri = b.uri → a.uri ∈ s.store.uris)

include hdone hplain hagain in
/-- So the earlier texts make no difference to what is not named. -/
theorem get?_changed_lastEdits {v : Uri} (hv : v ∉ edits.map (·.uri)) :
    (s.changed .calm ((lastEdits edits).map .edit)).store.get? v
      = (s.changed .calm (edits.map .edit)).store.get? v := by
  have hget : ∀ edits : List SourceFile, s.store.Plain edits →
      (edits.Pairwise fun a b => a.uri = b.uri → a.uri ∈ s.store.uris) →
      v ∉ edits.map (·.uri) →
      (s.changed .calm (edits.map .edit)).store.get? v
        = (s.store.get? v).map fun d =>
          if v ∈ s.store.stirred edits then d.sentBack else d := by
    intro edits hplain hagain hv
    rw [changed_edits]
    exact get?_foldl_plain .calm edits hplain hagain
      (t := (s.relinkCandidates _).1) rfl rfl hdone.current
      (fun _ _ => Iff.rfl) hv
  have honce : (lastEdits edits).Pairwise fun a b =>
      a.uri = b.uri → a.uri ∈ s.store.uris :=
    (List.pairwise_map.1 (nodup_uris_lastEdits edits)).imp
      fun hne heq => absurd heq hne
  rw [hget _ hplain hagain hv,
    hget _ hplain.lastEdits honce (mem_uris_lastEdits.not.2 hv)]
  simp only [Store.mem_stirred_lastEdits]

include hdone hplain hagain in
theorem sameLayout_changed_lastEdits :
    Store.SameLayout (s.changed .calm ((lastEdits edits).map .edit)).store
      (s.changed .calm (edits.map .edit)).store := by
  refine Store.sameLayout_of_get? ?_ fun v => ?_
  · rw [changed_edits, changed_edits, uris_foldl_edits, uris_foldl_edits,
      uris_lastEdits, Distinct.union_ofList]
    rfl
  · by_cases hv : v ∈ edits.map (·.uri)
    · -- who is named is a project in neither
      obtain ⟨file, hfile, rfl⟩ := List.mem_map.1 hv
      have hnone : ∀ edits : List SourceFile, s.store.Plain edits →
          (((s.changed .calm (edits.map .edit)).store.get? file.uri).bind
            fun d => Project.ofEntry? (file.uri, d)) = none := by
        intro edits hplain'
        have hord := (Store.isProject_of_plan
          (plan_prepared_plain hdone hplain').1 file.uri).trans
            (hplain file hfile).1
        cases hd : (s.changed .calm (edits.map .edit)).store.get?
            file.uri with
        | none => rfl
        | some d =>
          rw [Store.isProject_of_get? hd] at hord
          exact Project.ofEntry?_eq_none.2
            (by simpa [Document.isProject] using hord)
      rw [hnone _ hplain, hnone _ hplain.lastEdits]
    · rw [get?_changed_lastEdits hdone hplain hagain hv]

include h hdone hplain hagain in
/-- If all that is given several texts has been loaded, the same is
built. -/
theorem mem_reworked_iff (hright : s.Right) {u : Uri}
    (hu : u ∉ edits.map (·.uri)) :
    u ∈ s.reworked edits ↔ u ∈ s.reworked (lastEdits edits) := by
  have hget := get?_changed_lastEdits hdone hplain hagain hu
  have hlook : ((s.changed .calm ((lastEdits edits).map .edit)).index.look
        (s.changed .calm ((lastEdits edits).map .edit)).store u).2
      = ((s.changed .calm (edits.map .edit)).index.look
        (s.changed .calm (edits.map .edit)).store u).2 := by
    rw [Index.look_eq_of (right_changed .calm hright _),
      Index.look_eq_of (right_changed .calm hright _),
      (h.changed _).builtins, (h.changed _).builtins,
      Store.horizon_of_layout
        (sameLayout_changed_lastEdits hdone hplain hagain)]
  have hrelinked : u ∈ s.relinked .calm ((lastEdits edits).map .edit)
      ↔ u ∈ s.relinked .calm (edits.map .edit) := by
    unfold relinked
    simp only [uris_edits_lastEdits, Distinct.mem_union]
    refine or_congr_right ?_
    rw [mem_relinkCandidates, mem_relinkCandidates, hget, hlook]
  unfold reworked
  rw [Store.mem_pending, Store.mem_pending, get?_prepared, get?_prepared,
    hget]
  simp only [hrelinked]

end Scene

-- ============================================================= workspaces

namespace Store

variable {s t : Store}

/-- What complete documents of one roster have in common in any case. -/
theorem SameRoster.outline (h : s.SameRoster t) (hs : s.Done)
    (ht : t.Done) (u : Uri) :
    (t.get? u).map (fun d => (d.text, d.stage, d.offered))
      = (s.get? u).map fun d => (d.text, d.stage, d.offered) := by
  have hgiven : ∀ r : Store, r.Done →
      (r.get? u).map (fun d => (d.text, d.stage, d.offered))
        = ((r.get? u).map (·.text)).map fun text =>
          (text, .validated,
            some (Distinct.ofList (Content.ofText text).1.names)) := by
    intro r hr
    rw [Option.map_map]
    refine Option.map_congr fun d hd => ?_
    obtain ⟨scope, hbuilt⟩ := hr u d hd
    have hoffered : d.offered
        = some (Distinct.ofList (Content.ofText d.text).1.names) :=
      congrArg Document.offered hbuilt
    rw [hr.stage hd, hoffered]
    rfl
  rw [hgiven s hs, hgiven t ht, h.text]

end Store

namespace Workspace

theorem store_updated_edits (w : Workspace) (edits : List SourceFile) :
    (w.updated (edits.map .edit)).store
      = ((w.begin false).scene.edited edits).store :=
  congrArg Scene.store (scene_updated w _)

/-- A batch of edits, and the last text of each document alone. The same
documents are left, with the same texts, complete and offering the same
names. If the edits are plain and the index is right, everything else is
the same too exactly if what one of the two updates builds alone comes
out as it was; and so it is if all that is given several texts has been
loaded. -/
theorem updated_lastEdits (builtins : List SourceFile)
    (queue : List Change) (files : List SourceFile)
    (batches : List (List Change)) (edits : List SourceFile) :
    let w := (opened builtins queue files).1.updates batches
    let s := (w.begin false).scene
    let full := (w.updated (edits.map .edit)).store
    let once := (w.updated ((lastEdits edits).map .edit)).store
    once.uris = full.uris
    ∧ (∀ u, (once.get? u).map (fun d => (d.text, d.stage, d.offered))
      = (full.get? u).map fun d => (d.text, d.stage, d.offered))
    ∧ (w.scene.Right → w.store.Plain edits →
      (full.Matches once ↔
        ∀ u ∉ edits.map (·.uri),
          ¬(u ∈ s.reworked edits ↔ u ∈ s.reworked (lastEdits edits)) →
          full.get? u = w.store.get? u ∧ once.get? u = w.store.get? u)
      ∧ (edits.Pairwise (fun a b => a.uri = b.uri →
          a.uri ∈ w.store.uris) → full.Matches once)) := by
  intro w s full once
  obtain ⟨hopened, hcomplete⟩ := regular_opened builtins queue files
  obtain ⟨hregular, hdone, -⟩ :=
    regular_updates hopened hcomplete batches
  have hs : s.Regular builtins := hregular.begin
  have hfull : full = (s.edited edits).store := store_updated_edits w _
  have honce : once = (s.edited (lastEdits edits)).store :=
    store_updated_edits w _
  have hroster := Scene.sameRoster_lastEdits hs edits
  rw [hfull, honce]
  refine ⟨hroster.uris, hroster.outline (hs.edited _).2 (hs.edited _).2,
    fun hright hplain => ?_⟩
  have hiff := Scene.matches_lastEdits_iff hs hdone hright hplain
  exact ⟨hiff, fun hagain => hiff.2 fun u hu hone =>
    absurd (Scene.mem_reworked_iff hs hdone hplain hagain hright hu) hone⟩

/-- A document with a reference, in a project with another document. -/
def enclosed : List SourceFile :=
  [⟨Uri.ofString "/p/P", "project P \x7b source \"s\"; \x7d"⟩,
    ⟨Uri.ofString "/p/s/e", "ref A;"⟩, ⟨Uri.ofString "/p/s/x", ""⟩]

/-- The other document comes to define the name at the second attempt. -/
def retried : List SourceFile :=
  [⟨Uri.ofString "/p/s/x", "def B;"⟩, ⟨Uri.ofString "/p/s/x", "def A;"⟩]

theorem updated_lastEdits_retried :
    let w := (opened [] [] enclosed).1.updates []
    w.scene.Right ∧ w.store.Plain retried
    ∧ (w.updated (retried.map .edit)).store.Matches
      (w.updated ((lastEdits retried).map .edit)).store := by
  have hfacts : (fun w : Workspace =>
      (w.store.isProject (Uri.ofString "/p/s/x"),
        decide (Uri.ofString "/p/s/x" ∈ w.store.uris)))
        ((opened [] [] enclosed).1.updates []) = (false, true) := by
    decide +kernel
  obtain ⟨hord, hloaded⟩ := Prod.mk.inj hfacts
  have hright := (tidy_started [] enclosed).right
  have hplain : ((opened [] [] enclosed).1.updates []).store.Plain
      retried := by
    intro file hfile
    rcases List.mem_pair.1 hfile with rfl | rfl
    · exact ⟨hord, by decide +kernel⟩
    · exact ⟨hord, by decide +kernel⟩
  have hagain : retried.Pairwise fun a b => a.uri = b.uri →
      a.uri ∈ ((opened [] [] enclosed).1.updates []).store.uris :=
    List.pairwise_pair.2 fun _ => of_decide_eq_true hloaded
  exact ⟨hright, hplain,
    ((updated_lastEdits [] [] enclosed [] retried).2.2 hright hplain).2
      hagain⟩

/-- Where the references of a document lead does not hang on how often its
text has been replaced. -/
theorem targetsOf_of_matches {w w' : Workspace}
    (h : w.store.Matches w'.store) {u : Uri}
    (hu : (w.store.get? u).isSome) : w'.targetsOf u = w.targetsOf u := by
  obtain ⟨d, hd⟩ := Option.isSome_iff_exists.1 hu
  obtain ⟨n, hn⟩ := h.same u d hd
  unfold targetsOf
  rw [hd, hn]
  rfl

/-- A builtin that defines a name. -/
def library : List SourceFile := [⟨Uri.ofString "/b", "def A;"⟩]

/-- A chain of projects, with a reference in the first of them that leads
to the builtin. -/
def chained : List SourceFile :=
  [⟨Uri.ofString "/q/Q", "project Q \x7b source \"s\"; \x7d"⟩,
    ⟨Uri.ofString "/m/M", "project M \x7b depends Q; \x7d"⟩,
    ⟨Uri.ofString "/p/P",
      "project P \x7b depends M; source \"s\"; \x7d"⟩,
    ⟨Uri.ofString "/p/s/e", "ref A;"⟩]

/-- A new document of the last project comes to define the name at the
second attempt. -/
def arriving : List SourceFile :=
  [⟨Uri.ofString "/q/s/n", "def B;"⟩, ⟨Uri.ofString "/q/s/n", "def A;"⟩]

/-- The reference is left where it leads if the new document is given two
texts, and leads to the new document if it is given the last of them. -/
theorem not_matches_lastEdits :
    let w := (opened library [] chained).1.updates []
    w.scene.Right ∧ w.store.Plain arriving
    ∧ ¬ (w.updated (arriving.map .edit)).store.Matches
      (w.updated ((lastEdits arriving).map .edit)).store := by
  have hfacts : (fun w : Workspace =>
      (w.store.isProject (Uri.ofString "/q/s/n"),
        ((w.updated (arriving.map .edit)).store.get?
          (Uri.ofString "/p/s/e")).isSome,
        (w.updated (arriving.map .edit)).targetsOf
          (Uri.ofString "/p/s/e"),
        (w.updated ((lastEdits arriving).map .edit)).targetsOf
          (Uri.ofString "/p/s/e")))
        ((opened library [] chained).1.updates [])
      = (false, true, [some (Uri.ofString "/b")],
        [some (Uri.ofString "/q/s/n")]) := by decide +kernel
  simp only [Prod.mk.injEq] at hfacts
  obtain ⟨hord, hloaded, hfull, honce⟩ := hfacts
  refine ⟨(tidy_started library chained).right, fun file hfile => ?_,
    fun hmatches => ?_⟩
  · rcases List.mem_pair.1 hfile with rfl | rfl
    · exact ⟨hord, by decide +kernel⟩
    · exact ⟨hord, by decide +kernel⟩
  · have htargets := targetsOf_of_matches hmatches hloaded
    rw [hfull, honce] at htargets
    exact absurd htargets (by decide)

end Workspace

end Purview

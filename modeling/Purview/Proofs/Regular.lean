/-
What undisturbed requests keep up. Between them a scene is regular
(`Scene.Regular`): its documents are in their forms, the builtins stand
first with the texts they came with and everything else behind them,
and no horizon is remembered twice. Every change keeps a scene regular
(`Regular.apply`), and so do the search for documents to relink and the
build, after which all documents are complete (`Regular.build`).
-/
import Purview.Proofs.Start

namespace Purview

namespace Store

/-- The builtins stand first, with the texts that they came with, and
are the only documents that are marked. -/
structure Founded (builtins : List SourceFile) (s : Store) : Prop where
  base : ∃ later,
    s.uris = Distinct.ofList (builtins.map (·.uri)) ++ later
  marked : ∀ u d, s.get? u = some d →
    (d.builtin = true ↔ u ∈ Distinct.ofList (builtins.map (·.uri)))
  text : ∀ u d text, s.get? u = some d →
    lastText builtins u = some text → d.text = text

/-- Changes in place that leave marks alone, and texts of builtins. -/
theorem Founded.congr {builtins : List SourceFile} {s t : Store}
    (h : s.Founded builtins) (huris : t.uris = s.uris)
    (hsame : ∀ u d, t.get? u = some d → ∃ x, s.get? u = some x
      ∧ d.builtin = x.builtin ∧ (x.builtin = true → d.text = x.text)) :
    t.Founded builtins := by
  refine ⟨huris ▸ h.base, fun u d hd => ?_, fun u d text hd hlast => ?_⟩
  · obtain ⟨x, hx, hbuiltin, -⟩ := hsame u d hd
    rw [hbuiltin]
    exact h.marked u x hx
  · obtain ⟨x, hx, -, htext⟩ := hsame u d hd
    have hmem : u ∈ Distinct.ofList (builtins.map (·.uri)) :=
      mem_of_lastText hlast
    rw [htext ((h.marked u x hx).2 hmem)]
    exact h.text u x text hx hlast

end Store

namespace Scene

/-- What undisturbed requests keep up. -/
structure Regular (builtins : List SourceFile) (s : Scene) : Prop where
  ready : s.store.Ready
  founded : s.store.Founded builtins
  keyed : (s.index.horizons.map Prod.fst).Nodup
  builtins : s.index.builtins = Distinct.ofList (builtins.map (·.uri))
  withdrawn : s.trace.withdrawn = false

-- ===================================================== nothing withdrawn

theorem withdrawn_note (s : Scene) (step : Step) (u : Uri) :
    (s.note .calm step u).trace.withdrawn = s.trace.withdrawn := by
  show (s.trace.withdrawn || decide (none = some (step, u))) = _
  simp

/-- A calm host does not withdraw while documents go back. -/
theorem withdrawn_sendBackAll (us : List Uri) (s : Scene) :
    (sendBackAll .calm us s).1.trace.withdrawn = s.trace.withdrawn := by
  induction us generalizing s with
  | nil => rfl
  | cons u us ih =>
    show (sendBackAll .calm us
      (s.sendBack .calm u).1).1.trace.withdrawn = _
    rw [ih]
    unfold sendBack
    split
    · exact s.withdrawn_note .unlink u
    · rfl

theorem withdrawn_invalidate (s : Scene) (u : Uri) :
    (s.invalidate .calm u).1.trace.withdrawn = s.trace.withdrawn := by
  unfold invalidate
  split
  · rfl
  · simp only [trace_reindex, withdrawn_sendBackAll]
    exact s.withdrawn_note .unlink u

/-- Nor while a change is made. -/
theorem withdrawn_apply (s : Scene) (c : Change) :
    (s.apply .calm c).1.trace.withdrawn = s.trace.withdrawn := by
  cases c with
  | edit file =>
    show (s.put .calm file).1.trace.withdrawn = _
    cases hd : s.store.get? file.uri with
    | none =>
      have hinsert : (s.insertRead .calm file.uri
          file.text).trace.withdrawn = s.trace.withdrawn :=
        s.withdrawn_note .parse file.uri
      rw [put_of_none .calm hd]
      unfold added
      split
      · exact hinsert
      · split
        · simp only [trace_reindex, withdrawn_sendBackAll]
          exact hinsert
        · exact hinsert
    | some d =>
      cases hb : d.builtin with
      | true => rw [put_of_builtin .calm hd hb]
      | false =>
        rw [put_of_loaded .calm hd hb]
        exact s.withdrawn_invalidate file.uri
  | removal u =>
    show (s.remove .calm u).1.trace.withdrawn = _
    cases hd : s.store.get? u with
    | none => rw [remove_of_none .calm hd]
    | some d =>
      cases hb : d.builtin with
      | true =>
        rw [remove_of_builtin .calm (by simp [Store.isBuiltin, hd, hb])]
      | false =>
        rw [(remove_of_loaded .calm hd hb).2.2]
        exact s.withdrawn_invalidate u

-- ============================================================= the index

/-- Invalidation forgets and remembers nothing new. -/
theorem index_invalidate_sublist (host : Host) (s : Scene) (u : Uri) :
    (s.invalidate host u).1.index.builtins = s.index.builtins
    ∧ ((s.invalidate host u).1.index.horizons.map Prod.fst).Sublist
      (s.index.horizons.map Prod.fst) := by
  cases hd : s.store.get? u with
  | none =>
    rw [invalidate_of_none host hd]
    exact ⟨rfl, .refl _⟩
  | some d =>
    rw [index_invalidate host hd]
    split
    · exact ⟨rfl, List.nil_sublist _⟩
    · refine ⟨rfl, List.Sublist.map Prod.fst ?_⟩
      exact List.filter_sublist.trans List.filter_sublist

/-- A change only makes the index forget. -/
theorem index_apply (host : Host) (s : Scene) (c : Change) :
    (s.apply host c).1.index.builtins = s.index.builtins
    ∧ ((s.apply host c).1.index.horizons.map Prod.fst).Sublist
      (s.index.horizons.map Prod.fst) := by
  have hretain : ∀ (i : Index) (keep : Uri → Horizon → Bool),
      ((i.retain keep).horizons.map Prod.fst).Sublist
        (i.horizons.map Prod.fst) :=
    fun i keep => List.filter_sublist.map Prod.fst
  have hinvalidate := s.index_invalidate_sublist host
  cases c with
  | edit file =>
    show (s.put host file).1.index.builtins = _
      ∧ ((s.put host file).1.index.horizons.map Prod.fst).Sublist _
    cases hd : s.store.get? file.uri with
    | none =>
      rw [put_of_none host hd]
      unfold added
      split
      · exact ⟨rfl, .refl _⟩
      · split
        · refine ⟨?_, List.nil_sublist _⟩
          simp only [index_reindex, index_sendBackAll]
          rfl
        · exact ⟨rfl, hretain _ _⟩
    | some d =>
      cases hb : d.builtin with
      | true =>
        rw [put_of_builtin host hd hb]
        exact ⟨rfl, .refl _⟩
      | false =>
        rw [put_of_loaded host hd hb]
        exact hinvalidate file.uri
  | removal u =>
    show (s.remove host u).1.index.builtins = _
      ∧ ((s.remove host u).1.index.horizons.map Prod.fst).Sublist _
    cases hd : s.store.get? u with
    | none =>
      rw [remove_of_none host hd]
      exact ⟨rfl, .refl _⟩
    | some d =>
      cases hb : d.builtin with
      | true =>
        rw [remove_of_builtin host (by simp [Store.isBuiltin, hd, hb])]
        exact ⟨rfl, .refl _⟩
      | false =>
        obtain ⟨hbuiltins, hsub⟩ := hinvalidate u
        rw [(remove_of_loaded host hd hb).2.1]
        exact ⟨hbuiltins, ((hretain _ _).trans (hretain _ _)).trans hsub⟩

-- ====================================================== what is kept up

variable {builtins : List SourceFile} {s : Scene}

/-- A change leaves documents at rest. -/
theorem ready_apply (host : Host) (hs : s.store.Ready) (c : Change) :
    (s.apply host c).1.store.Ready := by
  intro v d hd
  rw [get?_apply] at hd
  split at hd
  · next hv =>
    cases c with
    | edit file =>
      unfold Store.revised at hd
      dsimp only at hd
      split at hd
      · cases hd
        exact Document.ready_read _ _
      · next x hx =>
        cases hd
        have hx : s.store.get? v = some x := by rw [hv]; exact hx
        split
        · exact hs v x hx
        · exact Document.ready_outdated (hs v x hx) _
    | removal u =>
      have hv : v = u := hv
      exact hs v d (hv ▸ (Option.filter_eq_some_iff.1 hd).1)
  · obtain ⟨x, hx, rfl⟩ := Option.map_eq_some_iff.1 hd
    split
    · exact Document.ready_sentBack (hs v x hx)
    · exact hs v x hx

/-- What a change leaves of the documents other than its own, and of a
builtin. -/
theorem apply_kept (host : Host) {c : Change} {v : Uri} {d : Document}
    (hd : (s.apply host c).1.store.get? v = some d) :
    (v = c.uri ∧ s.store.get? v = none ∧ d.builtin = false)
    ∨ ∃ x, s.store.get? v = some x ∧ d.builtin = x.builtin
      ∧ (x.builtin = true → d.text = x.text) := by
  rw [get?_apply] at hd
  split at hd
  · next hv =>
    subst hv
    cases c with
    | edit file =>
      unfold Store.revised at hd
      dsimp only at hd
      split at hd
      · next hnone =>
        cases hd
        exact .inl ⟨rfl, hnone, rfl⟩
      · next x hx =>
        cases hd
        refine .inr ⟨x, hx, ?_⟩
        cases hb : x.builtin with
        | true => simp [hb]
        | false =>
          refine ⟨?_, fun h => nomatch h⟩
          exact x.alike_outdated.builtin.trans hb
    | removal u =>
      exact .inr ⟨d, (Option.filter_eq_some_iff.1 hd).1, rfl,
        fun _ => rfl⟩
  · obtain ⟨x, hx, rfl⟩ := Option.map_eq_some_iff.1 hd
    refine .inr ⟨x, hx, ?_⟩
    split
    · exact ⟨x.alike_sentBack.builtin, fun _ => x.alike_sentBack.text⟩
    · exact ⟨rfl, fun _ => rfl⟩

/-- And it leaves what a workspace is founded on. -/
theorem founded_apply (host : Host) (h : s.store.Founded builtins)
    (c : Change) : (s.apply host c).1.store.Founded builtins := by
  obtain ⟨later, hlater⟩ := h.base
  -- whoever is not loaded is no builtin
  have hnew : ∀ u, s.store.get? u = none →
      u ∉ Distinct.ofList (builtins.map (·.uri)) := by
    intro u hu hmem
    refine (Store.get?_eq_none _ _).1 hu ?_
    rw [hlater]
    exact List.mem_append_left _ hmem
  refine ⟨?_, fun u d hd => ?_, fun u d text hd hlast => ?_⟩
  · rw [uris_apply]
    cases c with
    | edit file =>
      unfold Distinct.insert
      dsimp only
      split
      · exact ⟨later, hlater⟩
      · exact ⟨later ++ [file.uri], by rw [hlater, List.append_assoc]⟩
    | removal u =>
      dsimp only
      cases hb : s.store.isBuiltin u with
      | true => exact ⟨later, hlater⟩
      | false =>
        refine ⟨later.filter (· ≠ u), ?_⟩
        have hkeep : (Distinct.ofList (builtins.map (·.uri))).filter
            (· ≠ u) = Distinct.ofList (builtins.map (·.uri)) := by
          refine List.filter_eq_self.2 fun v hv => ?_
          rw [decide_eq_true_eq]
          intro heq
          subst heq
          cases hd : s.store.get? v with
          | none => exact hnew v hd hv
          | some d =>
            have hmarked := (h.marked v d hd).2 hv
            simp [Store.isBuiltin, hd, hmarked] at hb
        simp only [Bool.false_eq_true, if_false]
        rw [hlater, List.filter_append, hkeep]
  · rcases apply_kept host hd with ⟨-, hnone, hb⟩ | ⟨x, hx, hb, -⟩
    · simp [hb, hnew u hnone]
    · rw [hb]
      exact h.marked u x hx
  · have hmem := mem_of_lastText hlast
    rcases apply_kept host hd with ⟨-, hnone, -⟩ | ⟨x, hx, -, htext⟩
    · exact absurd hmem (hnew u hnone)
    · rw [htext ((h.marked u x hx).2 hmem)]
      exact h.text u x text hx hlast

/-- A change keeps a scene regular. -/
theorem Regular.apply (h : s.Regular builtins) (c : Change) :
    (s.apply .calm c).1.Regular builtins := by
  obtain ⟨hbuiltins, hsub⟩ := index_apply .calm s c
  exact ⟨ready_apply .calm h.ready c, founded_apply .calm h.founded c,
    h.keyed.sublist hsub, hbuiltins.trans h.builtins,
    (withdrawn_apply s c).trans h.withdrawn⟩

/-- So does a search for documents to relink. -/
theorem Regular.relinkCandidates (h : s.Regular builtins)
    (changed : List Uri) :
    (s.relinkCandidates changed).1.Regular builtins := by
  have hgrows := relinkFrom_grows s.store changed s.store.entries s.index
  exact ⟨h.ready, h.founded, hgrows.keyed h.keyed,
    hgrows.builtins.trans h.builtins, h.withdrawn⟩

theorem Regular.sendBackAll (h : s.Regular builtins) (us : List Uri) :
    (Scene.sendBackAll .calm us s).1.Regular builtins := by
  have hindex := index_sendBackAll .calm us s
  have hget : ∀ v d, (Scene.sendBackAll .calm us s).1.store.get? v
      = some d → ∃ x, s.store.get? v = some x
        ∧ d = if v ∈ us then x.sentBack else x := by
    intro v d hd
    rw [store_sendBackAll, Store.get?_alter] at hd
    obtain ⟨x, hx, hxd⟩ := Option.map_eq_some_iff.1 hd
    exact ⟨x, hx, hxd.symm⟩
  refine ⟨fun v d hd => ?_, h.founded.congr ?_ fun v d hd => ?_,
    hindex ▸ h.keyed, hindex ▸ h.builtins,
    (withdrawn_sendBackAll us s).trans h.withdrawn⟩
  · obtain ⟨x, hx, rfl⟩ := hget v d hd
    split
    · exact Document.ready_sentBack (h.ready v x hx)
    · exact h.ready v x hx
  · rw [store_sendBackAll, Store.uris_alter]
  · obtain ⟨x, hx, rfl⟩ := hget v d hd
    refine ⟨x, hx, ?_⟩
    split
    · exact ⟨x.alike_sentBack.builtin, fun _ => x.alike_sentBack.text⟩
    · exact ⟨rfl, fun _ => rfl⟩

theorem Regular.changed (h : s.Regular builtins)
    (changes : List Change) :
    (s.changed .calm changes).Regular builtins :=
  applyAll_induction .calm (h.relinkCandidates _) fun _ c _ h => h.apply c

/-- A batch keeps a scene regular up to its build. -/
theorem Regular.prepared (h : s.Regular builtins)
    (changes : List Change) :
    (s.prepared .calm changes).Regular builtins :=
  ((h.changed changes).relinkCandidates _).sendBackAll _

-- ======================================================= what is to build

/-- A document is to be built, unless it is a builtin. -/
def Due (s : Scene) (v : Uri) : Prop :=
  ∀ d, s.store.get? v = some d → d.builtin = false →
    d.stage < .validated

/-- A document that a change names is to be built, and a document that
is to be built stays so. -/
theorem due_apply (host : Host) {c : Change} {v : Uri}
    (h : v = c.uri ∨ s.Due v) : (s.apply host c).1.Due v := by
  intro d hd hb
  rw [get?_apply] at hd
  split at hd
  · cases c with
    | edit file =>
      unfold Store.revised at hd
      dsimp only at hd
      split at hd
      · cases hd
        exact show Stage.parsed < Stage.validated by decide
      · next x _ =>
        cases hd
        split at hb
        · next hx =>
          rw [hx] at hb
          cases hb
        · rw [if_neg (by assumption)]
          show x.outdated.stage < _
          rw [x.stage_outdated]
          decide
    | removal u =>
      rw [(Option.filter_eq_some_iff.1 hd).2] at hb
      cases hb
  · next hne =>
    obtain ⟨x, hx, rfl⟩ := Option.map_eq_some_iff.1 hd
    have hx := h.resolve_left hne x hx
    split at hb
    · rw [if_pos (by assumption), Document.stage_sentBack]
      split
      · decide
      · exact hx (x.alike_sentBack.builtin.symm.trans hb)
    · rw [if_neg (by assumption)]
      exact hx hb

/-- The documents that a batch names are to be built. -/
theorem due_changed (host : Host) {changes : List Change} {v : Uri}
    (hv : v ∈ changes.map Change.uri) :
    (s.changed host changes).Due v := by
  have hkeep : ∀ (cs : List Change) (t : Scene), t.Due v →
      (cs.foldl (fun s c => (s.apply host c).1) t).Due v := by
    intro cs
    induction cs with
    | nil => exact fun _ ht => ht
    | cons c cs ih => exact fun t ht => ih _ (due_apply host (.inr ht))
  obtain ⟨c, hc, rfl⟩ := List.mem_map.1 hv
  obtain ⟨before, after, hsplit⟩ :=
    List.append_of_mem (mem_ordered.2 hc)
  unfold changed
  rw [applyAll_eq, hsplit, List.foldl_append, List.foldl_cons]
  exact hkeep after _ (due_apply host (.inl rfl))

end Scene

/-- Every document is complete. -/
def Store.Done (s : Store) : Prop :=
  ∀ u d, s.get? u = some d → ∃ scope, d = d.built u scope

/-- Where everything is done, documents are at rest. -/
theorem Store.Done.ready {s : Store} (h : s.Done) : s.Ready := by
  intro u d hd
  obtain ⟨scope, hbuilt⟩ := h u d hd
  exact .built scope hbuilt

theorem Store.Done.isProject {s : Store} (h : s.Done) {u : Uri}
    {d : Document} (hd : s.get? u = some d) :
    d.isProject = d.announces := by
  obtain ⟨scope, hbuilt⟩ := h u d hd
  exact Document.isProject_of_built hbuilt

theorem Store.Done.stage {s : Store} (h : s.Done) {u : Uri}
    {d : Document} (hd : s.get? u = some d) : d.stage = .validated := by
  obtain ⟨scope, hbuilt⟩ := h u d hd
  exact congrArg Document.stage hbuilt

/-- Nothing is left to be done to it. -/
theorem Store.Done.complete {s : Store} (h : s.Done) {u : Uri}
    {d : Document} (hd : s.get? u = some d) : ¬ d.stage < .validated := by
  rw [h.stage hd]
  decide

namespace Scene

variable {builtins : List SourceFile} {s : Scene}

/-- A request that has not been withdrawn starts on a regular scene. -/
theorem Regular.begin (h : s.Regular builtins) :
    (s.begin false).Regular builtins :=
  ⟨h.ready, h.founded, h.keyed, h.builtins, rfl⟩

/-- An undisturbed build keeps a scene regular and leaves all documents
complete. -/
theorem Regular.build (h : s.Regular builtins) :
    (s.build .calm).1.Regular builtins ∧ (s.build .calm).1.store.Done
    ∧ ∃ scope, s.Finishes scope (s.build .calm).1 := by
  obtain ⟨⟨scope, hfinish⟩, -⟩ := build_calm h.ready h.withdrawn h.keyed
  have hdone : (s.build .calm).1.store.Done :=
    fun u d hd => hfinish.done h.ready hd
  have hfaithful := h.ready.faithful
  have hkeyed : ((s.build .calm).1.index.horizons.map Prod.fst).Nodup := by
    obtain ⟨hforgets, hkeeps⟩ := build_index .calm hfaithful
    by_cases hf : s.Forgets .calm
    · exact (hforgets hf).keyed List.nodup_nil
    · exact (hkeeps hf).1.keyed h.keyed
  refine ⟨⟨hdone.ready, h.founded.congr hfinish.completed.uris ?_, hkeyed,
    (build_builtins .calm hfaithful).trans h.builtins,
    hfinish.withdrawn⟩, hdone, scope, hfinish⟩
  intro u d hd
  cases hx : s.store.get? u with
  | none =>
    rw [Store.get?_none_of_uris hfinish.completed.uris hx] at hd
    cases hd
  | some x =>
    refine ⟨x, rfl, ?_⟩
    by_cases hu : u ∈ s.store.pending
    · rw [hfinish.completed.done u hu x hx] at hd
      obtain rfl := Option.some.inj hd
      exact ⟨rfl, fun _ => rfl⟩
    · rw [hfinish.completed.others u hu, hx] at hd
      obtain rfl := Option.some.inj hd
      exact ⟨rfl, fun _ => rfl⟩

/-- An update keeps a scene regular and leaves all documents complete. -/
theorem Regular.update (h : s.Regular builtins) (changes : List Change) :
    (s.update .calm changes).1.Regular builtins
    ∧ (s.update .calm changes).1.store.Done := by
  rw [update_eq]
  obtain ⟨hregular, hdone, -⟩ := (h.prepared changes).build
  exact ⟨hregular, hdone⟩

end Scene

namespace Workspace

/-- The documents of a start are regular. -/
theorem regular_loaded (builtins : List SourceFile)
    (queue : List Change) (files : List SourceFile) :
    ((waiting builtins queue).loaded .calm files).Regular builtins := by
  obtain ⟨huris, hindex, hget, hw⟩ := loaded_waiting builtins queue files
  generalize (waiting builtins queue).loaded .calm files = s at *
  have hinitial : ∀ u d, s.store.get? u = some d →
      initial builtins files u = some d :=
    fun u d hd => (hget u).symm.trans hd
  refine ⟨fun u d hd => .fresh (ready_initial (hinitial u d hd)),
    ⟨?_, fun u d hd => ?_, fun u d text hd hlast => ?_⟩, ?_, ?_, hw⟩
  · rw [huris, List.map_append, Distinct.ofList_append]
    exact Distinct.exists_union_eq_append _ _
  · have hd := hinitial u d hd
    unfold initial at hd
    cases hlast : lastText builtins u with
    | some text =>
      rw [hlast] at hd
      obtain rfl := Option.some.inj hd
      exact iff_of_true rfl (mem_of_lastText hlast)
    | none =>
      rw [hlast, Option.map_none, Option.none_or] at hd
      obtain ⟨text, -, rfl⟩ := Option.map_eq_some_iff.1 hd
      exact iff_of_false Bool.false_ne_true (notMem_of_lastText hlast)
  · have hd := hinitial u d hd
    unfold initial at hd
    rw [hlast] at hd
    obtain rfl := Option.some.inj hd
    rfl
  · rw [hindex]
    exact List.nodup_nil
  · rw [hindex]

/-- A workspace that has been started undisturbed is regular and has
complete documents only. -/
theorem regular_opened (builtins : List SourceFile)
    (queue : List Change) (files : List SourceFile) :
    (opened builtins queue files).1.scene.Regular builtins
    ∧ (opened builtins queue files).1.store.Done := by
  obtain ⟨hfirst, hdone, -⟩ :=
    (regular_loaded builtins queue files).build
  have hstart := start_of_closed (w := waiting builtins queue) .calm
    files rfl
  unfold opened
  rw [hstart]
  dsimp only
  split
  · exact ⟨hfirst, hdone⟩
  · have hlater := hfirst.update (waiting builtins queue).gate.queue
    generalize (((waiting builtins queue).loaded .calm
      files).build .calm).1 = t at *
    rw [Scene.update_eq] at hlater
    rw [store, scene_update]
    dsimp only
    exact hlater

end Workspace

end Purview

/-
How a change that is made by itself and followed by a build compares
with an update that makes it. Both make the change in the same way, and
both build what is pending; but an update sends some ordinary documents
back before it builds (`Relinks`), and nothing else ever relinks a
document that is complete.

To the other documents that makes no difference. Projects are checked
against the same plan, since relinking reads no text, and a document
that is linked finds the same offers, since relinking changes none; and
the search for documents to relink remembers no horizon of a document
that changes (`lookup_prepared`). So the two ways differ in the
documents that the update relinks and in nothing else
(`notified_agrees`).
-/
import Purview.Proofs.Arrival
import Purview.Proofs.Ordinary

namespace Purview

-- ============================================== one build with more to do

namespace Scene

/-- One scene is the other with some ordinary documents sent back that
were complete, and remembers the same of those that are to be built. -/
structure Relinks (back : List Uri) (m p : Scene) : Prop where
  uris : p.store.uris = m.store.uris
  get? : ∀ v, p.store.get? v = (m.store.get? v).map fun d =>
    if v ∈ back then d.sentBack else d
  complete : ∀ v ∈ back, ∃ d, m.store.get? v = some d
    ∧ (∃ scope, d = d.built v scope) ∧ d.announces = false
  builtins : p.index.builtins = m.index.builtins
  look : ∀ v d, v ∉ back → m.store.get? v = some d →
    d.stage < .validated → d.announces = false →
    p.index.horizons.lookup v = m.index.horizons.lookup v

namespace Relinks

variable {back : List Uri} {m p : Scene} {v : Uri} {d : Document}

theorem get?_of_not_mem (h : Relinks back m p) (hv : v ∉ back) :
    p.store.get? v = m.store.get? v := by
  rw [h.get?]
  simp [hv]

theorem isProject (h : Relinks back m p) (v : Uri) :
    p.store.isProject v = m.store.isProject v := by
  unfold Store.isProject
  rw [h.get?]
  cases m.store.get? v with
  | none => rfl
  | some d =>
    show Document.isProject (if v ∈ back then d.sentBack else d) = _
    split
    · unfold Document.isProject
      rw [d.descriptor?_sentBack]
      rfl
    · rfl

theorem announces (h : Relinks back m p) (v : Uri) :
    p.store.announces v = m.store.announces v := by
  unfold Store.announces
  rw [h.get?]
  cases m.store.get? v with
  | none => rfl
  | some d =>
    show Document.announces (if v ∈ back then d.sentBack else d) = _
    split
    · unfold Document.announces
      rw [d.alike_sentBack.text]
      rfl
    · rfl

/-- Outside of what is relinked the same is to be built. -/
theorem mem_pending (h : Relinks back m p) (hv : v ∉ back) :
    v ∈ p.store.pending ↔ v ∈ m.store.pending := by
  rw [Store.mem_pending, Store.mem_pending, h.get?_of_not_mem hv]

/-- What is relinked is none by its text. -/
theorem not_announces (h : Relinks back m p) (hv : v ∈ back) :
    m.store.announces v = false := by
  obtain ⟨d, hd, -, hann⟩ := h.complete v hv
  rw [Store.announces_of_get? hd, hann]

/-- So the same projects are to be built. -/
theorem any_pending (h : Relinks back m p) :
    p.store.pending.any p.store.announces
      = m.store.pending.any m.store.announces := by
  rw [Bool.eq_iff_iff, List.any_eq_true, List.any_eq_true]
  refine exists_congr fun v => ?_
  rw [h.announces]
  by_cases hv : v ∈ back
  · simp [h.not_announces hv]
  · rw [h.mem_pending hv]

/-- The plan once the pending projects have been read. -/
theorem plan_first (h : Relinks back m p) (hm : m.store.Ready)
    (hp : p.store.Ready) :
    p.first.scene.store.plan = m.first.scene.store.plan := by
  refine Store.plan_congr ?_ fun v => ?_
  · rw [uris_first, uris_first, h.uris]
  cases hd : m.store.get? v with
  | none =>
    rw [Store.get?_none_of_uris uris_first hd,
      Store.get?_none_of_uris (uris_first.trans h.uris) hd]
  | some d =>
    by_cases hv : v ∈ back
    · -- A document that is relinked is no project before or after.
      have hx : p.store.get? v = some d.sentBack := by
        rw [h.get?, hd, Option.map_some, if_pos hv]
      obtain ⟨x, hx', ⟨scope, hbuilt⟩, hann⟩ := h.complete v hv
      obtain rfl : d = x := Option.some.inj (hd.symm.trans hx')
      have hord : m.store.isProject v = false := by
        rw [Store.isProject_of_get? hd, Document.isProject_of_built hbuilt,
          hann]
      have hord' : p.store.isProject v = false := (h.isProject v).trans hord
      rw [get?_first hm hd, get?_first hp hx, hord, hord']
      have hdesc : d.sentBack.descriptor? = d.descriptor? :=
        d.descriptor?_sentBack
      simp only [Bool.false_eq_true, if_false]
      split <;> split <;> exact hdesc
    · have hx : p.store.get? v = some d :=
        (h.get?_of_not_mem hv).trans hd
      rw [get?_first hm hd, get?_first hp hx, h.isProject]
      simp only [h.mem_pending hv]

/-- What is still remembered of a document that is linked. -/
theorem lookup_retained (h : Relinks back m p) (hv : v ∉ back)
    (hd : m.store.get? v = some d) (hlt : d.stage < .validated)
    (hann : d.announces = false) :
    p.retained.horizons.lookup v = m.retained.horizons.lookup v
      ∧ p.retained.builtins = m.retained.builtins := by
  unfold retained
  rw [h.any_pending]
  split
  · exact ⟨rfl, h.builtins⟩
  · exact ⟨h.look v d hv hd hlt hann, h.builtins⟩

variable {builtins : List SourceFile}

/-- Relinking leaves the documents and their texts alone. -/
theorem sameRoster (h : Relinks back m p) {f g : Uri → LinkScope}
    {a b : Scene} (hf : m.Finishes f a) (hg : p.Finishes g b) :
    a.store.SameRoster b.store := by
  refine ⟨?_, fun v => ?_⟩
  · rw [hg.completed.uris, hf.completed.uris, h.uris]
  · rw [hg.text, hf.text, h.get?, Option.map_map]
    refine Option.map_congr fun d _ => ?_
    show Document.text (if v ∈ back then d.sentBack else d) = d.text
    split
    · exact d.alike_sentBack.text
    · rfl

/-- An ordinary document is linked in the same scope. -/
theorem linkScope (h : Relinks back m p) (hm : m.store.Ready)
    (hp : p.store.Ready) {f g : Uri → LinkScope} {a b : Scene}
    (hf : m.Finishes f a) (hg : p.Finishes g b) (hv : v ∉ back)
    (hd : m.store.get? v = some d) (hlt : d.stage < .validated)
    (hann : d.announces = false) :
    (p.retained.linkScope b.store v).2
      = (m.retained.linkScope a.store v).2 := by
  have hroster := h.sameRoster hf hg
  have ha : a.store.Done := fun u x hx => hf.done hm hx
  have hb : b.store.Done := fun u x hx => hg.done hp hx
  have hlayout := hroster.layout ha hb
  have hx : a.store.get? v = some (d.built v (f v)) := by
    rw [hf.get?, hd, Option.map_some, if_pos hlt]
  have hy : b.store.get? v = some (d.built v (g v)) := by
    rw [hg.get?, h.get?_of_not_mem hv, hd, Option.map_some, if_pos hlt]
  rw [Index.linkScope_of_ordinary _ hx
      ((d.isProject_built v _).trans hann),
    Index.linkScope_of_ordinary _ hy ((d.isProject_built v _).trans hann)]
  have hlook : (p.retained.look b.store v).2
      = (m.retained.look a.store v).2 := by
    obtain ⟨hlookup, hbuiltins⟩ := h.lookup_retained hv hd hlt hann
    unfold Index.look
    rw [hlookup, hbuiltins, Store.horizon_of_layout hlayout]
    split <;> rfl
  have hcandidates : b.store.candidates v (m.retained.look a.store v).2.visible
      = a.store.candidates v (m.retained.look a.store v).2.visible := by
    unfold Store.candidates
    rw [hroster.uris]
  rw [hlook, hcandidates, hroster.offersOf ha hb]

/-- Whether documents are relinked or not makes no difference to the
others. -/
theorem build (h : Relinks back m p) (hm : m.Regular builtins)
    (hp : p.Regular builtins) :
    let a := (m.build .calm).1.store
    let b := (p.build .calm).1.store
    a.SameRoster b ∧ a.Done ∧ b.Done
    ∧ (∀ v, v ∉ back → a.get? v = b.get? v)
    ∧ (∀ v ∈ back, a.get? v = m.store.get? v) := by
  intro a b
  obtain ⟨⟨f, hf, hkept, hfound⟩, -⟩ :=
    build_scopes hm.ready hm.withdrawn hm.keyed
  obtain ⟨⟨g, hg, hkept', hfound'⟩, -⟩ :=
    build_scopes hp.ready hp.withdrawn hp.keyed
  have hroster := h.sameRoster hf hg
  have ha : a.Done := fun u x hx => hf.done hm.ready hx
  have hb : b.Done := fun u x hx => hg.done hp.ready hx
  have hscope : ∀ v d, v ∉ back → m.store.get? v = some d →
      d.stage < .validated → f v = g v := by
    intro v d hv hd hlt
    have hpending : v ∈ m.store.pending := Store.mem_pending.2 ⟨d, hd, hlt⟩
    have hpending' := (h.mem_pending hv).2 hpending
    cases hann : m.store.announces v with
    | true =>
      have hann' := (h.announces v).trans hann
      cases hproject : m.store.isProject v with
      | true =>
        have hproject' := (h.isProject v).trans hproject
        rw [hkept v (mem_kept.2 ⟨hpending, hproject, hann⟩),
          hkept' v (mem_kept.2 ⟨hpending', hproject', hann'⟩),
          Projects.facts_of_plan (h.plan_first hm.ready hp.ready)]
      | false =>
        have hproject' := (h.isProject v).trans hproject
        have hnew : v ∈ m.found := List.mem_filter.2 ⟨mem_others.2
          ⟨hpending, fun hk => by simp [(mem_kept.1 hk).2.1] at hproject⟩,
          hann⟩
        have hnew' : v ∈ p.found := List.mem_filter.2 ⟨mem_others.2
          ⟨hpending', fun hk => by simp [(mem_kept.1 hk).2.1] at hproject'⟩,
          hann'⟩
        have hprojects : b.projects = a.projects := (hroster.layout ha hb).2
        rw [hfound v hnew, hfound' v hnew']
        show _ = (⟨[], some (b.projects.facts v)⟩ : LinkScope)
        rw [hprojects]
    | false =>
      rw [hf.ordinary v hpending hann,
        hg.ordinary v hpending' ((h.announces v).trans hann)]
      rw [Store.announces_of_get? hd] at hann
      exact (h.linkScope hm.ready hp.ready hf hg hv hd hlt hann).symm
  refine ⟨hroster, ha, hb, fun v hv => ?_, fun v hv => ?_⟩
  · show (m.build .calm).1.store.get? v = (p.build .calm).1.store.get? v
    rw [hf.get?, hg.get?, h.get?_of_not_mem hv]
    refine Option.map_congr fun d hd => ?_
    split
    · next hlt => rw [hscope v d hv hd hlt]
    · rfl
  · obtain ⟨d, hd, ⟨scope, hbuilt⟩, -⟩ := h.complete v hv
    have hcomplete : ¬ d.stage < .validated := by
      rw [hbuilt, Document.stage_built]
      decide
    show (m.build .calm).1.store.get? v = _
    rw [hf.get?, hd, Option.map_some, if_neg hcomplete]

end Relinks

end Scene

-- ==================================================== what is remembered

namespace Index

variable {i : Index} {v : Uri}

/-- What is left of one horizon after forgetting. -/
theorem lookup_retain (hi : (i.horizons.map Prod.fst).Nodup)
    (keep : Uri → Horizon → Bool) (v : Uri) :
    (i.retain keep).horizons.lookup v
      = (i.horizons.lookup v).filter (keep v) := by
  show (i.horizons.filter fun e => keep e.1 e.2).lookup v = _
  have hsub := hi.sublist
    ((List.filter_sublist (p := fun e => keep e.1 e.2)).map Prod.fst)
  refine Option.ext fun h => ?_
  rw [Option.filter_eq_some_iff]
  constructor
  · intro hv
    obtain ⟨hmem, hkeep⟩ := List.mem_filter.1 (mem_of_lookup hv)
    exact ⟨lookup_of_mem hi hmem, hkeep⟩
  · rintro ⟨hv, hkeep⟩
    exact lookup_of_mem hsub
      (List.mem_filter.2 ⟨mem_of_lookup hv, hkeep⟩)

/-- Asking about one document leaves what is remembered of another. -/
theorem lookup_look_of_ne (i : Index) (s : Store) {u : Uri} (hv : v ≠ u) :
    (i.look s u).1.horizons.lookup v = i.horizons.lookup v := by
  cases hu : i.horizons.lookup u with
  | some h => rw [look_of_lookup_some hu]
  | none =>
    rw [look_of_lookup_none hu, List.lookup_append, List.lookup_cons,
      beq_eq_false_iff_ne.2 hv, List.lookup_nil, Option.or_none]

end Index

namespace Scene

/-- A search for documents to relink asks about none that changes. -/
theorem lookup_relinkFrom (store : Store) {changed : List Uri}
    (es : List (Uri × Document)) (i : Index) {v : Uri}
    (hv : v ∈ changed) :
    (relinkFrom store changed es i).1.horizons.lookup v
      = i.horizons.lookup v := by
  induction es generalizing i with
  | nil => rfl
  | cons e es ih =>
    obtain ⟨u, d⟩ := e
    obtain ⟨j, hj, hr⟩ := relinkFrom_cons store changed u d es i
    rw [hr]
    rcases hj with rfl | ⟨rfl, hrelinkable⟩
    · exact ih j
    · have hne : v ≠ u := by
        rintro rfl
        simp [relinkable, hv] at hrelinkable
      exact (ih _).trans (i.lookup_look_of_ne store hne)

variable (host : Host)

/-- What a change makes the index forget hangs on the documents alone. -/
theorem index_apply_eq_retain (t : Scene) (c : Change) :
    ∃ keep, ∀ s : Scene, s.store = t.store →
      (s.apply host c).1.index = s.index.retain keep := by
  have hnothing : ∀ {f : Scene → Scene},
      (∀ s, s.store = t.store → f s = s) →
      ∃ keep, ∀ s : Scene, s.store = t.store →
        (f s).index = s.index.retain keep := by
    intro f hf
    refine ⟨fun _ _ => true, fun s hs => ?_⟩
    rw [hf s hs, Index.retain_all]
  cases hd : t.store.get? c.uri with
  | none =>
    cases c with
    | removal u =>
      exact hnothing fun s hs => remove_of_none host (hs ▸ hd)
    | edit file =>
      cases hproject : (Document.read file.text).isProject with
      | true =>
        refine ⟨fun _ _ => false, fun s hs => ?_⟩
        show (s.put host file).1.index = _
        rw [put_of_none host (hs ▸ hd), ← Index.clear_eq_retain]
        unfold added
        rw [store_insertRead_self]
        simp only [hproject, if_true, index_reindex, index_sendBackAll]
        rfl
      | false =>
        refine ⟨fun _ h => !h.folders.any file.uri.isWithin,
          fun s hs => ?_⟩
        show (s.put host file).1.index = _
        rw [put_of_none host (hs ▸ hd)]
        unfold added
        rw [store_insertRead_self]
        simp only [hproject, Bool.false_eq_true, if_false, index_reindex]
        rfl
  | some d =>
    cases hb : d.builtin with
    | true =>
      exact hnothing fun s hs => apply_of_builtin host (hs ▸ hd) hb
    | false =>
      cases c with
      | edit file =>
        refine ⟨t.retains file.uri, fun s hs => ?_⟩
        show (s.put host file).1.index = _
        rw [put_of_loaded host (hs ▸ hd) hb, ← retains_congr hs]
        exact index_invalidate_eq_retain host s file.uri
      | removal u =>
        refine ⟨fun v h => t.retains u v h && (decide (v ≠ u)
          && !h.folders.any u.isWithin), fun s hs => ?_⟩
        show (s.remove host u).1.index = _
        rw [(remove_of_loaded host (hs ▸ hd) hb).2.1,
          index_invalidate_eq_retain, retains_congr hs]
        unfold Index.evict Index.evictCovering
        rw [Index.retain_retain, Index.retain_retain]

-- ========================================================= one change

/-- A batch of one change makes that change, behind a search. -/
theorem changed_single (s : Scene) (c : Change) :
    s.changed host [c]
      = ((s.relinkCandidates (Distinct.ofList [c.uri])).1.apply host c).1 := by
  unfold changed
  rw [applyAll_eq]
  cases c <;> rfl

/-- A change makes the same of the documents whatever is remembered. -/
theorem store_changed_single (s : Scene) (c : Change) :
    (s.changed host [c]).store.uris = (s.apply host c).1.store.uris
    ∧ ∀ v, (s.changed host [c]).store.get? v
      = (s.apply host c).1.store.get? v := by
  rw [changed_single]
  refine ⟨?_, fun v => ?_⟩
  · rw [uris_apply, uris_apply]
    rfl
  · rw [get?_apply, get?_apply]
    rfl

variable {builtins : List SourceFile} {s : Scene}

/-- What an update remembers of the document that it changes. -/
theorem lookup_prepared (h : s.Regular builtins) (c : Change) :
    (s.prepared host [c]).index.horizons.lookup c.uri
      = (s.apply host c).1.index.horizons.lookup c.uri := by
  obtain ⟨keep, hkeep⟩ := index_apply_eq_retain host s c
  have hmem : c.uri ∈ Distinct.ofList [c.uri] :=
    Distinct.mem_ofList.2 List.mem_cons_self
  let found := (s.relinkCandidates (Distinct.ofList [c.uri])).1
  have hkeyed : (found.index.horizons.map Prod.fst).Nodup :=
    (h.relinkCandidates _).keyed
  have hlookup : found.index.horizons.lookup c.uri
      = s.index.horizons.lookup c.uri :=
    lookup_relinkFrom s.store s.store.entries s.index hmem
  rw [index_prepared]
  show (relinkFrom _ (Distinct.ofList [c.uri]) _
    (s.changed host [c]).index).1.horizons.lookup _ = _
  rw [lookup_relinkFrom _ _ _ hmem, changed_single, hkeep found rfl,
    hkeep s rfl, Index.lookup_retain hkeyed, Index.lookup_retain h.keyed,
    hlookup]

/-- The only ordinary document that a change leaves to be built is the
one it names. -/
theorem eq_of_pending_apply (hdone : s.store.Done) {c : Change} {v : Uri}
    {d : Document} (hd : (s.apply host c).1.store.get? v = some d)
    (hlt : d.stage < .validated) (hann : d.announces = false) :
    v = c.uri := by
  by_contra hv
  rw [get?_apply, if_neg hv] at hd
  obtain ⟨x, hx, hxd⟩ := Option.map_eq_some_iff.1 hd
  split at hxd
  · next hback =>
    have hproject := Store.isProject_of_mem_recalled hv hback
    rw [Store.isProject_of_get? hx, hdone.isProject hx] at hproject
    subst hxd
    unfold Document.announces at hann hproject
    rw [x.alike_sentBack.text, hproject] at hann
    cases hann
  · subst hxd
    exact hdone.complete hx hlt

/-- A change leaves the documents alone that an update with it would
relink. They are loaded and describe no project. -/
theorem get?_apply_of_relinked {c : Change} {v : Uri}
    (hv : v ∈ s.relinked host [c]) :
    ∃ d, s.store.get? v = some d ∧ d.isProject = false
      ∧ (s.apply host c).1.store.get? v = some d := by
  obtain ⟨hnamed, hord⟩ := isProject_of_mem_relinked host hv
  rw [s.isProject_changed host hnamed] at hord
  have hsame := get?_changed host hnamed hord
  have hloaded : ∃ d, s.store.get? v = some d := by
    rcases Distinct.mem_union.1 hv with hv | hv
    · obtain ⟨d, hd, -⟩ := mem_relinkCandidates.1 hv
      exact ⟨d, hd⟩
    · obtain ⟨d, hd, -⟩ := mem_relinkCandidates.1 hv
      exact ⟨d, hsame.symm.trans hd⟩
  obtain ⟨d, hd⟩ := hloaded
  refine ⟨d, hd, (Store.isProject_of_get? hd).symm.trans hord, ?_⟩
  rw [← (store_changed_single host s c).2, hsame, hd]

/-- An update relinks documents besides making its change. -/
theorem relinks_prepared (h : s.Regular builtins) (hdone : s.store.Done)
    (c : Change) :
    Relinks (s.relinked .calm [c]) (s.apply .calm c).1
      (s.prepared .calm [c]) := by
  obtain ⟨huris, hget⟩ := store_changed_single .calm s c
  constructor
  · rw [store_prepared, Store.uris_alter, huris]
  · intro v
    rw [store_prepared, Store.get?_alter, hget]
  · intro v hv
    obtain ⟨d, hd, hord, happly⟩ := get?_apply_of_relinked .calm hv
    exact ⟨d, happly, hdone v d hd, (hdone.isProject hd).symm.trans hord⟩
  · rw [(h.prepared [c]).builtins, (h.apply c).builtins]
  · intro v d _ hd hlt hann
    obtain rfl := eq_of_pending_apply .calm hdone hd hlt hann
    exact lookup_prepared .calm h c

end Scene

-- ================================================================= runs

namespace Workspace

/-- A workspace that has been started and updated undisturbed is regular
and has complete documents only. -/
theorem regular_updates {builtins : List SourceFile} {w : Workspace}
    (h : w.scene.Regular builtins) (hdone : w.store.Done)
    (batches : List (List Change)) :
    (w.updates batches).scene.Regular builtins
    ∧ (w.updates batches).store.Done
    ∧ (w.updates batches).gate = w.gate := by
  induction batches generalizing w with
  | nil => exact ⟨h, hdone, rfl⟩
  | cons changes batches ih =>
    have hbegun : (w.begin false).scene.Regular builtins := h.begin
    have hupdate := hbegun.update changes
    rw [← scene_updated] at hupdate
    have hgate : (w.updated changes).gate = w.gate := by
      rw [updated, gate_update]
      rfl
    rw [updates, List.foldl_cons, ← hgate]
    exact ih hupdate.1 hupdate.2

theorem gate_opened (builtins : List SourceFile) (queue : List Change)
    (files : List SourceFile) :
    (opened builtins queue files).1.gate = ⟨true, []⟩ :=
  (texts_start (w := waiting builtins queue) .calm
    (sound_create .calm builtins).faithful rfl files).2.2

/-- A change that is made by itself and followed by a build leaves what
an update with it leaves, but for the documents that the update relinks:
these stay as they were, and so they are the same in the end exactly if
relinking comes to nothing. -/
theorem notified_agrees (builtins : List SourceFile)
    (queue : List Change) (files : List SourceFile)
    (batches : List (List Change)) (c : Change) :
    let w := (opened builtins queue files).1.updates batches
    let noted := (w.run [⟨.calm, false, .notify c⟩,
      ⟨.calm, false, .build⟩]).store
    let updated := (w.run [⟨.calm, false, .update [c]⟩]).store
    let relinked := (w.begin false).scene.relinked .calm [c]
    noted.uris = updated.uris
    ∧ (∀ u, (noted.get? u).map (fun d => (d.stage, d.text))
      = (updated.get? u).map fun d => (d.stage, d.text))
    ∧ (∀ u, u ∉ relinked → noted.get? u = updated.get? u)
    ∧ (∀ u ∈ relinked, noted.get? u = w.store.get? u)
    ∧ ((∀ u, noted.get? u = updated.get? u) ↔
      ∀ u ∈ relinked, updated.get? u = w.store.get? u) := by
  intro w noted updated relinked
  obtain ⟨hopened, hcomplete⟩ := regular_opened builtins queue files
  obtain ⟨hregular, hdone, hgate⟩ :=
    regular_updates hopened hcomplete batches
  let s := (w.begin false).scene
  have hs : s.Regular builtins := ⟨hregular.ready, hregular.founded,
    hregular.keyed, hregular.builtins, rfl⟩
  -- The two builds, one of them with documents to relink.
  let m := (s.apply .calm c).1.begin false
  have hm : m.Regular builtins := by
    have happly := hs.apply c
    exact ⟨happly.ready, happly.founded, happly.keyed, happly.builtins, rfl⟩
  have hopen : w.gate.isOpen = true := by
    rw [hgate]
    exact congrArg Gate.isOpen (gate_opened builtins queue files)
  have hnoted : noted = (m.build .calm).1.store := by
    show ((w.serve ⟨.calm, false, .notify c⟩).serve
      ⟨.calm, false, .build⟩).store = _
    rw [serve_notice_open .calm hopen c]
    rfl
  have hupdated : updated
      = ((s.prepared .calm [c]).build .calm).1.store :=
    congrArg Scene.store (scene_serve_update .calm false [c])
  have hrelinks := s.relinks_prepared hs hdone c
  have hrelinks : Scene.Relinks relinked m (s.prepared .calm [c]) :=
    ⟨hrelinks.uris, hrelinks.get?, hrelinks.complete, hrelinks.builtins,
      hrelinks.look⟩
  obtain ⟨hroster, ha, hb, hothers, hkept⟩ :=
    hrelinks.build hm (hs.prepared [c])
  rw [← hnoted, ← hupdated] at hroster hothers
  rw [← hnoted] at ha hkept
  rw [← hupdated] at hb
  have hstay : ∀ u ∈ relinked, noted.get? u = w.store.get? u := by
    intro u hu
    obtain ⟨d, hd, -, happly⟩ := Scene.get?_apply_of_relinked .calm hu
    exact (hkept u hu).trans (happly.trans hd.symm)
  refine ⟨hroster.uris.symm, fun u => ?_, hothers, hstay, ?_⟩
  · have hstage : ∀ {t : Store}, t.Done → (t.get? u).map
        (fun d => (d.stage, d.text))
        = ((t.get? u).map (·.text)).map fun text => (.validated, text) := by
      intro t ht
      rw [Option.map_map]
      refine Option.map_congr fun d hd => ?_
      obtain ⟨scope, hbuilt⟩ := ht u d hd
      rw [Function.comp, hbuilt, Document.stage_built]
    rw [hstage ha, hstage hb, hroster.text]
  · constructor
    · intro h u hu
      exact (h u).symm.trans (hstay u hu)
    · intro h u
      by_cases hu : u ∈ relinked
      · exact (hstay u hu).trans (h u hu).symm
      · exact hothers u hu

/-- A document with a reference that nothing answers stays as it is when
a definition is made by itself, and leads there after an update. -/
theorem not_notified_resolved :
    let a := Uri.ofString "/a.sysw"
    let b := Uri.ofString "/b.sysw"
    let w := (started [] [⟨a, "ref A;"⟩]).1
    let c := Change.edit ⟨b, "def A;"⟩
    (w.run [⟨.calm, false, .notify c⟩,
        ⟨.calm, false, .build⟩]).targetsOf a = [none]
      ∧ (w.run [⟨.calm, false, .update [c]⟩]).targetsOf a = [some b] := by
  constructor <;> decide +kernel

end Workspace

end Purview

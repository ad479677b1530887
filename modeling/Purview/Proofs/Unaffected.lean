/-
When a document need not be linked again. If an index tells rightly of a
document that some ordinary documents do not affect it, then no update
that edits or drops these alone changes what the document may be linked
against (`Workspace.resolve_unaffected`).

Two things have to be seen. The first is about the documents: the changes
move no project, so the owner and its closure are what they were once all
is complete again; and what lies in the folders of the closure is what lay
there, since a document that comes or goes there would have been seen
(`horizon_spared`). The second is about the index, which may be asked
while projects are sent back. Whether it is right about one document does
not hang on what it remembers of others, and a change makes it forget by
the documents alone; so it may be followed as if it remembered nothing
else (`Tells.apply`).

An index that is wrong about the document is made right by any build that
forgets, and then the scope moves without a change that affects it
(`not_unaffected_emptied`). Behind a start with nothing kept back it is
never wrong; a change that was kept back can leave it so, if it unmakes
the project that owns the document.
-/
import Purview.Proofs.Notified
import Purview.Proofs.Serving

namespace Purview

-- ================================================== changes to some only

namespace Store

variable {s t : Store} {named back : List Uri} {c : Change}

/-- A document that was ordinary is so behind changes that spare it, and
behind those that name it. -/
theorem Spares.ordinary (h : s.Spares t named back) {u : Uri}
    {d x : Document} (hd : s.get? u = some d) (hord : d.isProject = false)
    (hann : d.announces = false) (hx : t.get? u = some x) :
    x.isProject = false ∧ x.announces = false := by
  by_cases hu : u ∈ named
  · exact h.after u hu x hx
  rw [h.others u hu, hd] at hx
  obtain rfl := Option.some.inj hx
  split
  · refine ⟨?_, ?_⟩
    · unfold Document.isProject
      rwa [d.descriptor?_sentBack]
    · unfold Document.announces
      rwa [d.alike_sentBack.text]
  · exact ⟨hord, hann⟩

/-- An ordinary text makes an ordinary document of one. -/
theorem ordinary_of_revised
    (hnow : ∀ x, t.get? c.uri = some x →
      x.isProject = false ∧ x.announces = false)
    (htext : ∀ file, c = .edit file →
      (Document.read file.text).announces = false) {y : Document}
    (hy : t.revised c = some y) :
    y.isProject = false ∧ y.announces = false := by
  cases c with
  | removal u => exact hnow y (Option.filter_eq_some_iff.1 hy).1
  | edit file =>
    have htext := htext file rfl
    unfold revised at hy
    dsimp only at hy
    split at hy
    · obtain rfl := Option.some.inj hy
      exact ⟨htext, htext⟩
    · next x hx =>
      obtain rfl := Option.some.inj hy
      split
      · exact hnow x hx
      · refine ⟨?_, htext⟩
        show x.outdated.descriptor?.isSome = false
        rw [x.descriptor?_outdated]
        exact (hnow x hx).1

/-- Where nothing is loaded, a change that adds no project recalls
nothing. -/
theorem recalled_of_unloaded (hx : t.get? c.uri = none)
    (htext : ∀ file, c = .edit file →
      (Document.read file.text).announces = false) : t.recalled c = [] := by
  cases c with
  | edit file =>
    have hread : (Document.read file.text).isProject = false :=
      htext file rfl
    rw [recalled_of_none hx, hread]
    rfl
  | removal u =>
    have hx : t.get? u = none := hx
    simp [recalled, isBuiltin, concerned, hx]

end Store

namespace Scene

variable (host : Host) {s : Store} {t : Scene} {named back : List Uri}

/-- A change to a document that was loaded and ordinary, be it the first
one or not. -/
theorem spares_over {c : Change} {d : Document}
    (h : s.Spares t.store named back) (hd : s.get? c.uri = some d)
    (hord : d.isProject = false) (hann : d.announces = false)
    (htext : ∀ file, c = .edit file →
      (Document.read file.text).announces = false) :
    s.Spares (t.apply host c).1.store (c.uri :: named)
      (back ++ t.store.recalled c) := by
  have hnow := fun x => h.ordinary (x := x) hd hord hann
  refine spares_step host h ?_
    (fun y hy => Store.ordinary_of_revised hnow htext hy) fun w hw => ?_
  · rw [Store.isProject_of_get? hd, hord]
  refine ⟨(Store.isSome_get? s c.uri).1 (by rw [hd]; rfl), ?_⟩
  cases hx : t.store.get? c.uri with
  | none =>
    rw [Store.recalled_of_unloaded hx htext] at hw
    cases hw
  | some x =>
    cases hb : x.builtin with
    | true =>
      rw [Store.recalled_of_builtin hx hb] at hw
      cases hw
    | false => exact h.owner_of_mem_recalled hx hb (hnow x hx).1 hw

/-- Changes to documents that were loaded and ordinary spare what they do
not name, however often they name the others. -/
theorem spares_over_foldl (cs : List Change)
    (h : s.Spares t.store named back)
    (hcs : ∀ c ∈ cs, (∃ d, s.get? c.uri = some d ∧ d.isProject = false
        ∧ d.announces = false) ∧ ∀ file, c = .edit file →
      (Document.read file.text).announces = false) :
    ∃ named' back', s.Spares
        (cs.foldl (fun t c => (t.apply host c).1) t).store named' back'
      ∧ ∀ v ∈ named', v ∈ named ∨ v ∈ cs.map Change.uri := by
  induction cs generalizing t named back with
  | nil => exact ⟨named, back, h, fun v hv => .inl hv⟩
  | cons c cs ih =>
    obtain ⟨⟨d, hd, hord, hann⟩, htext⟩ := hcs c List.mem_cons_self
    obtain ⟨named', back', hspares, hnamed⟩ :=
      ih (spares_over host h hd hord hann htext)
        fun c' hc' => hcs c' (List.mem_cons_of_mem c hc')
    refine ⟨named', back', hspares, fun v hv => ?_⟩
    rw [List.map_cons, List.mem_cons]
    rcases hnamed v hv with hv | hv
    · rcases List.mem_cons.1 hv with rfl | hv
      · exact .inr (.inl rfl)
      · exact .inl hv
    · exact .inr (.inr hv)

end Scene

namespace Store

variable {s t : Store} {named builtins : List Uri} {u : Uri}

/-- A document that sees nothing of what is named has the horizon that it
had, if the projects are the ones that there were. -/
theorem horizon_spared (hprojects : t.projects = s.projects)
    (horder : t.uris.filter (· ∉ named) = s.uris.filter (· ∉ named))
    (hloaded : ∀ v ∈ named, v ∈ s.uris) {seen : List Uri}
    (hseen : (Horizon.of s builtins u).visible = .only seen)
    (hnot : ∀ v ∈ seen, v ∉ named) :
    Horizon.of t builtins u = Horizon.of s builtins u := by
  unfold Horizon.of at hseen ⊢
  rw [hprojects]
  cases hp : s.projects.ownerOf? u with
  | none => rfl
  | some p =>
    rw [hp] at hseen
    obtain rfl := Visibility.only.inj hseen
    dsimp only
    congr 3
    refine filter_of_order horder ?_ ?_
    · -- who has come into the folders was in them before
      intro v hv hmem
      have hnear := (List.mem_filter.1 hv).2
      exact hnot v (Distinct.mem_union.2
        (.inl (List.mem_filter.2 ⟨hloaded v hmem, hnear⟩))) hmem
    · exact fun v hv => hnot v (Distinct.mem_union.2 (.inl hv))

end Store

-- ============================================ being right about one

namespace Index

/-- What is told is what is remembered, or else what is computed. -/
theorem look_eq_getD (i : Index) (s : Store) (u : Uri) :
    (i.look s u).2
      = (i.horizons.lookup u).getD (Horizon.of s i.builtins u) := by
  unfold look
  split
  · next h hu => rw [hu]; rfl
  · next hu => rw [hu]; rfl

/-- The scope of a document hangs on what is told of the document. -/
theorem linkScope_of_look {i j : Index} {s : Store} {u : Uri}
    (h : (j.look s u).2 = (i.look s u).2) :
    (j.linkScope s u).2 = (i.linkScope s u).2 := by
  unfold linkScope
  cases s.get? u with
  | none => rfl
  | some d =>
    dsimp only
    split
    · rfl
    · dsimp only
      rw [h]

/-- An index that remembers one document only. -/
def narrow (i : Index) (u : Uri) : Index := i.retain fun v _ => v = u

theorem look_narrow {i : Index} (hi : (i.horizons.map Prod.fst).Nodup)
    (s : Store) (u : Uri) : ((i.narrow u).look s u).2 = (i.look s u).2 := by
  rw [look_eq_getD, look_eq_getD, narrow, lookup_retain hi]
  cases i.horizons.lookup u with
  | none => rfl
  | some h => simp [Index.retain, Option.filter]

end Index

namespace Scene

variable (host : Host) {s : Scene} {u : Uri}

/-- What the index tells of a document is what would be computed. -/
def Tells (s : Scene) (u : Uri) : Prop :=
  (s.index.look s.store u).2 = Horizon.of s.store s.index.builtins u

theorem tells_of_right (h : s.Right) (u : Uri) : s.Tells u :=
  Index.look_eq_of h u

/-- An index that is right about one document is right if it remembers
no other. -/
theorem Tells.narrow (h : s.Tells u)
    (hk : (s.index.horizons.map Prod.fst).Nodup) :
    ({ s with index := s.index.narrow u } : Scene).Right := by
  refine ⟨hk.sublist (List.filter_sublist.map Prod.fst), fun e he => ?_⟩
  obtain ⟨hmem, heq⟩ := List.mem_filter.1 he
  obtain rfl : e.1 = u := of_decide_eq_true heq
  have hlook := h
  unfold Tells at hlook
  rw [Index.look_of_lookup_some (lookup_of_mem hk hmem)] at hlook
  exact hlook

namespace Tells

theorem look (h : s.Tells u) {i : Index} (hi : s.index.Grows s.store i)
    (hk : (s.index.horizons.map Prod.fst).Nodup) :
    ({ s with index := i } : Scene).Tells u := by
  unfold Tells
  rw [hi.look hk, hi.builtins]
  exact h

/-- A change leaves the index right about a document whatever it is told
of the others. -/
theorem apply (h : s.Tells u)
    (hk : (s.index.horizons.map Prod.fst).Nodup) (c : Change) :
    (s.apply host c).1.Tells u := by
  have hright := right_apply host (h.narrow hk) c
  have hstore := store_apply_congr host (s := s)
    (t := { s with index := s.index.narrow u }) rfl c
  obtain ⟨keep, hkeep⟩ := index_apply_eq_retain host s c
  have hindex := hkeep { s with index := s.index.narrow u } rfl
  have htold := tells_of_right hright u
  unfold Tells at htold ⊢
  rw [hstore, hindex] at htold
  rw [hkeep s rfl, ← Index.look_narrow (hk.sublist
    (List.filter_sublist.map Prod.fst))]
  have hswap : (s.index.retain keep).narrow u
      = (s.index.narrow u).retain keep := by
    unfold Index.narrow
    rw [Index.retain_retain, Index.retain_retain]
    simp only [Bool.and_comm]
  rw [hswap]
  exact htold

theorem layout (h : s.Tells u) {t : Store}
    (ht : Store.SameLayout t s.store) :
    ({ s with store := t } : Scene).Tells u := by
  unfold Tells
  rw [Index.look_layout s.index ht.symm, Store.horizon_of_layout ht]
  exact h

theorem prepared (h : s.Tells u) (hs : s.Intact)
    (changes : List Change) : (s.prepared host changes).Tells u := by
  have hscan : ∀ {s : Scene}, s.Intact ∧ s.Tells u → ∀ us,
      (s.relinkCandidates us).1.Intact
        ∧ (s.relinkCandidates us).1.Tells u := by
    intro s hs us
    exact ⟨hs.1.relinkCandidates us, hs.2.look
      (relinkFrom_grows s.store us s.store.entries s.index) hs.1.keyed⟩
  have hchanged : (s.changed host changes).Intact
      ∧ (s.changed host changes).Tells u :=
    applyAll_induction host (P := fun s => s.Intact ∧ s.Tells u)
      (hscan ⟨hs, h⟩ _) fun _ c _ h =>
        ⟨h.1.apply host c, h.2.apply host h.1.keyed c⟩
  have hscanned := (hscan hchanged
    (Distinct.ofList (changes.map Change.uri))).2.layout
      (s.sameLayout_prepared host changes)
  have hindex := index_prepared host s changes
  unfold Tells at hscanned ⊢
  rw [hindex]
  exact hscanned

/-- A build that makes and unmakes no project leaves the index right
about a document. -/
theorem build (h : s.Tells u) (hs : s.Intact)
    (hcurrent : s.store.Current) (hw : s.trace.withdrawn = false) :
    (s.build host).1.Tells u := by
  obtain ⟨hforgets, hkeeps⟩ := build_index host hs.faithful
  by_cases hf : s.Forgets host
  · exact tells_of_right
      ((Index.right_clear s.index _).grows (hforgets hf)) u
  · have hnone : ∀ v ∈ s.store.pending, s.store.isProject v = false := by
      intro v hv
      by_contra hproject
      rw [Bool.not_eq_false] at hproject
      refine hf ⟨hw, .inl ⟨v, List.mem_filter.2 ⟨hv, hproject⟩, ?_⟩⟩
      rw [← hcurrent.isProject v, hproject]
    obtain ⟨hgrows, hlayout⟩ := hkeeps hf
    have hlayout := hlayout (.inl hnone)
    have hmoved := h.layout hlayout
    exact hmoved.look (i := (s.build host).1.index) hgrows hs.keyed

end Tells

-- ============================================================ one update

/-- The changes of an update spare all but some ordinary documents, if
it is these that they edit or drop. -/
theorem spares_among (hdone : s.store.Done) {changed : List Uri}
    (hloaded : ∀ v ∈ changed, ∃ d, s.store.get? v = some d
      ∧ d.isProject = false) {changes : List Change}
    (hchanges : ∀ c ∈ changes, c.uri ∈ changed
      ∧ ∀ file, c = .edit file →
        (Document.read file.text).announces = false) :
    ∃ named back, s.store.Spares (s.changed .calm changes).store named back
      ∧ ∀ v ∈ named, v ∈ changed := by
  obtain ⟨named, back, hspares, hnamed⟩ :=
    spares_over_foldl .calm (ordered changes)
      (t := (s.relinkCandidates (Distinct.ofList
        (changes.map Change.uri))).1) (.refl s.store) fun c hc => by
      obtain ⟨hmem, htext⟩ := hchanges c (mem_ordered.1 hc)
      obtain ⟨d, hd, hord⟩ := hloaded c.uri hmem
      exact ⟨⟨d, hd, hord, (hdone.isProject hd).symm.trans hord⟩, htext⟩
  rw [← applyAll_eq] at hspares
  refine ⟨named, back, hspares, fun v hv => ?_⟩
  obtain ⟨c, hc, rfl⟩ := List.mem_map.1
    ((hnamed v hv).resolve_left (List.not_mem_nil))
  exact (hchanges c (mem_ordered.1 hc)).1

/-- Two stores whose documents are complete give a document the same
scope, if they have the same projects, the horizon is told to be the same
and it is in texts that are not seen that they differ. -/
theorem linkScope_done {i j : Index} {r t : Store} (hr : r.Done)
    (ht : t.Done) (hprojects : t.projects = r.projects)
    (hlook : (j.look t u).2 = (i.look r u).2) {seen : List Uri}
    (hseen : (i.look r u).2.visible = .only seen)
    (htext : ∀ v, v = u ∨ v ∈ seen →
      (t.get? v).map (·.text) = (r.get? v).map (·.text)) :
    (j.linkScope t u).2 = (i.linkScope r u).2 := by
  have htextu := htext u (.inl rfl)
  cases hd : r.get? u with
  | none =>
    rw [hd] at htextu
    have hd' := Option.map_eq_none_iff.1 htextu
    simp only [Index.linkScope, hd, hd']
  | some d =>
    rw [hd] at htextu
    obtain ⟨d', hd', hsame⟩ := Option.map_eq_some_iff.1 htextu
    have hkind : d'.isProject = d.isProject := by
      rw [ht.isProject hd', hr.isProject hd, Document.announces,
        Document.announces, hsame]
    cases hproject : d.isProject with
    | true =>
      rw [Index.linkScope_of_project j hd' (hkind.trans hproject),
        Index.linkScope_of_project i hd hproject, hprojects]
    | false =>
      rw [Index.linkScope_of_ordinary j hd' (hkind.trans hproject),
        Index.linkScope_of_ordinary i hd hproject, hlook, hseen]
      congr 1
      unfold Store.offersOf Store.candidates
      refine List.filterMap_congr fun v hv => ?_
      rw [ht.offered, hr.offered, htext v (.inr hv)]

/-- An update of ordinary documents leaves the scope of a document as it
is that they do not affect, if the index is right about the document. -/
theorem linkScope_update {builtins : List SourceFile}
    (h : s.Regular builtins) (hdone : s.store.Done) (htells : s.Tells u)
    {changed : List Uri} (hu : u ∉ changed)
    (hmeets : (s.index.look s.store u).2.meets changed = false)
    (hloaded : ∀ v ∈ changed, ∃ d, s.store.get? v = some d
      ∧ d.isProject = false) {changes : List Change}
    (hchanges : ∀ c ∈ changes, c.uri ∈ changed
      ∧ ∀ file, c = .edit file →
        (Document.read file.text).announces = false) :
    let t := (s.update .calm changes).1
    (t.index.linkScope t.store u).2
      = (s.index.linkScope s.store u).2 := by
  obtain ⟨named, back, hspares, hnamed⟩ :=
    spares_among hdone hloaded hchanges
  have hcurrent := current_prepared (hspares.current hdone.current)
  have hregular := h.prepared changes
  obtain ⟨hregular', hdone', scope, hfinish⟩ := hregular.build
  have hintact : (s.prepared .calm changes).Intact :=
    ⟨hregular.ready.faithful, hregular.keyed⟩
  have htold := (htells.prepared .calm ⟨h.ready.faithful, h.keyed⟩
    changes).build .calm hintact hcurrent hregular.withdrawn
  rw [update_eq]
  dsimp only
  generalize ((s.prepared .calm changes).build .calm).1 = t
    at hregular' hdone' hfinish htold
  have hprojects : t.store.projects = s.store.projects := by
    rw [hdone'.projects, hdone.projects, hfinish.plan hcurrent, Store.plan,
      (s.sameLayout_prepared .calm changes).2]
    exact congrArg _ hspares.plan
  have horder : t.store.uris.filter (· ∉ named)
      = s.store.uris.filter (· ∉ named) := by
    rw [hfinish.completed.uris, store_prepared, Store.uris_alter]
    exact hspares.order
  have htext : ∀ v, v ∉ named → (t.store.get? v).map (·.text)
      = (s.store.get? v).map (·.text) := by
    intro v hv
    rw [hfinish.text, text_prepared, hspares.text hv]
  -- the horizon is the same, and right both times
  obtain ⟨seen, hseen, hnot⟩ := Horizon.seen_of_not_meets hmeets
  have hbuiltins : t.index.builtins = s.index.builtins :=
    hregular'.builtins.trans h.builtins.symm
  have hlook : (t.index.look t.store u).2 = (s.index.look s.store u).2 := by
    unfold Tells at htells htold
    rw [htold, htells, hbuiltins]
    refine Store.horizon_spared hprojects horder (fun v hv => ?_)
      (htells ▸ hseen) fun v hv hmem => hnot v hv (hnamed v hmem)
    obtain ⟨d, hd, -⟩ := hloaded v (hnamed v hv)
    exact (s.store.isSome_get? v).1 (by rw [hd]; rfl)
  refine linkScope_done hdone hdone' hprojects hlook hseen fun v hv => ?_
  rcases hv with rfl | hv
  · exact htext v fun hmem => hu (hnamed v hmem)
  · exact htext v fun hmem => hnot v hv (hnamed v hmem)

end Scene

-- ============================================================= workspaces

namespace Workspace

/-- What a document resolves a name to, going by what the workspace
remembers. -/
def resolve (w : Workspace) (u : Uri) (name : String) : Option Uri :=
  (w.scene.index.linkScope w.store u).2.resolve name

/-- Behind a start that had nothing kept back, the index is right about
every document. -/
theorem tells_started (builtins files : List SourceFile) (u : Uri) :
    (started builtins files).1.scene.Tells u :=
  Scene.tells_of_right (tidy_started builtins files).right u

/-- A document that some ordinary documents do not affect, by what the
workspace says, resolves every name as before once these have been edited
or dropped. -/
theorem resolve_updated {w : Workspace} {builtins : List SourceFile}
    {u : Uri} {changed : List Uri} {changes : List Change}
    (h : w.scene.Regular builtins) (hdone : w.store.Done)
    (htells : w.scene.Tells u) (hu : u ∉ changed)
    (hloaded : ∀ v ∈ changed, ∃ d, w.store.get? v = some d
      ∧ d.isProject = false)
    (hchanges : ∀ c ∈ changes, c.uri ∈ changed
      ∧ ∀ file, c = .edit file →
        (Document.read file.text).announces = false)
    (hunaffected : (w.isAffected u changed).2 = false) (name : String) :
    ((w.isAffected u changed).1.updated changes).resolve u name
      = w.resolve u name := by
  have hgrows := Index.grows_look w.scene.index w.scene.store u
  -- the workspace once it has been asked, at the start of the update
  let s : Scene := ((w.isAffected u changed).1.begin false).scene
  have hregular : s.Regular builtins :=
    ⟨h.ready, h.founded, hgrows.keyed h.keyed,
      hgrows.builtins.trans h.builtins, rfl⟩
  have hlook : (s.index.look s.store u).2
      = (w.scene.index.look w.scene.store u).2 := hgrows.look h.keyed u
  have htold : s.Tells u := htells.look hgrows h.keyed
  have hmeets : (s.index.look s.store u).2.meets changed = false := by
    rw [hlook]
    exact hunaffected
  have hscope := Scene.linkScope_update hregular hdone htold hu hmeets
    hloaded hchanges
  have hsame : (s.index.linkScope s.store u).2
      = (w.scene.index.linkScope w.store u).2 :=
    Index.linkScope_of_look hlook
  dsimp only at hscope
  rw [hsame] at hscope
  unfold resolve store
  rw [scene_updated, hscope]
  rfl

/-- So it is in a workspace that has just been started. If changes had
been kept back, the index has to be right about the document. -/
theorem resolve_unaffected (builtins : List SourceFile)
    (queue : List Change) (files : List SourceFile) (u : Uri)
    (changed : List Uri) (changes : List Change) :
    let w := (opened builtins queue files).1
    (queue ≠ [] → (w.scene.index.look w.store u).2
      = Horizon.of w.store w.builtins u) →
    u ∉ changed →
    (∀ v ∈ changed, ∃ d, w.store.get? v = some d
      ∧ d.builtin = false ∧ d.isProject = false) →
    (∀ c ∈ changes, c.uri ∈ changed ∧ ∀ file, c = .edit file →
      (Document.read file.text).announces = false) →
    (w.isAffected u changed).2 = false →
    ∀ name, ((w.isAffected u changed).1.updated changes).resolve u name
      = w.resolve u name := by
  intro w htells hu hloaded hchanges hunaffected name
  obtain ⟨hregular, hdone⟩ := regular_opened builtins queue files
  have htells : w.scene.Tells u := by
    by_cases hqueue : queue = []
    · subst hqueue
      exact tells_started builtins files u
    · exact htells hqueue
  refine resolve_updated hregular hdone htells hu (fun v hv => ?_)
    hchanges hunaffected name
  obtain ⟨d, hd, -, hord⟩ := hloaded v hv
  exact ⟨d, hd, hord⟩

/-- A project with a document, and a document that nobody owns. -/
def fenced : List SourceFile :=
  [⟨Uri.ofString "/p/P", "project P \x7b source \"s\"; \x7d"⟩,
    ⟨Uri.ofString "/p/s/e", "ref A;"⟩, ⟨Uri.ofString "/x", ""⟩]

/-- The document of the project does not see what the other comes to
define. -/
theorem resolve_unaffected_fenced :
    let w := (opened [] [] fenced).1
    (w.isAffected (Uri.ofString "/p/s/e") [Uri.ofString "/x"]).2 = false
      ∧ ∀ name, ((w.isAffected (Uri.ofString "/p/s/e")
          [Uri.ofString "/x"]).1.updated
            [.edit ⟨Uri.ofString "/x", "def A;"⟩]).resolve
              (Uri.ofString "/p/s/e") name
        = w.resolve (Uri.ofString "/p/s/e") name := by
  intro w
  have hfacts : (fun w : Workspace =>
      ((w.store.get? (Uri.ofString "/x")).map
          fun d => (d.builtin, d.isProject),
        (w.isAffected (Uri.ofString "/p/s/e") [Uri.ofString "/x"]).2))
        (opened [] [] fenced).1 = (some (false, false), false) := by
    decide +kernel
  simp only [Prod.mk.injEq] at hfacts
  obtain ⟨hx, hunaffected⟩ := hfacts
  have hloaded : ∀ v ∈ [Uri.ofString "/x"], ∃ d, w.store.get? v = some d
      ∧ d.builtin = false ∧ d.isProject = false := by
    intro v hv
    rw [List.mem_singleton.1 hv]
    obtain ⟨d, hd, hmarks⟩ := Option.map_eq_some_iff.1 hx
    exact ⟨d, hd, congrArg Prod.fst hmarks, congrArg Prod.snd hmarks⟩
  have hordinary : (Document.read "def A;").announces = false := by
    decide +kernel
  have hkept := resolve_unaffected [] [] fenced (Uri.ofString "/p/s/e")
    [Uri.ofString "/x"] [.edit ⟨Uri.ofString "/x", "def A;"⟩]
    (absurd rfl) (by decide) hloaded
    (fun c hc => by
      rw [List.mem_singleton.1 hc]
      refine ⟨List.mem_cons_self, fun file hfile => ?_⟩
      rw [← Change.edit.inj hfile]
      exact hordinary)
    hunaffected
  exact ⟨hunaffected, hkept⟩

/-- A project that was emptied while changes were kept back, with a
document in its folder, and two more, of which one depends on the
other. -/
def emptied : Workspace :=
  (opened [] [.edit ⟨Uri.ofString "/p/P", ""⟩]
    [⟨Uri.ofString "/p/P", "project P \x7b source \"s\"; \x7d"⟩,
      ⟨Uri.ofString "/p/s/e", ""⟩,
      ⟨Uri.ofString "/q/Q", "project Q \x7b source \"s\"; \x7d"⟩,
      ⟨Uri.ofString "/q/s/x", ""⟩,
      ⟨Uri.ofString "/r/R", "project R \x7b depends Q; \x7d"⟩]).1

/-- The index goes on telling that the project owns its document. So the
document is told not to be affected by one that it sees as soon as the
index forgets. -/
theorem not_unaffected_emptied :
    let u := Uri.ofString "/p/s/e"
    let x := Uri.ofString "/q/s/x"
    (emptied.store.get? x).map (fun d => (d.builtin, d.isProject))
        = some (false, false)
      ∧ (emptied.isAffected u [x]).2 = false
      ∧ emptied.resolve u "B" = none
      ∧ ((emptied.isAffected u [x]).1.updated
        [.edit ⟨x, "def B;"⟩]).resolve u "B" = some x := by
  -- one evaluation for all that is asked about the workspace
  have hfacts : (fun w : Workspace =>
      ((w.store.get? (Uri.ofString "/q/s/x")).map
          fun d => (d.builtin, d.isProject),
        (w.isAffected (Uri.ofString "/p/s/e") [Uri.ofString "/q/s/x"]).2,
        w.resolve (Uri.ofString "/p/s/e") "B",
        ((w.isAffected (Uri.ofString "/p/s/e")
          [Uri.ofString "/q/s/x"]).1.updated
            [.edit ⟨Uri.ofString "/q/s/x", "def B;"⟩]).resolve
              (Uri.ofString "/p/s/e") "B")) emptied
      = (some (false, false), false, none,
        some (Uri.ofString "/q/s/x")) := by decide +kernel
  simp only [Prod.mk.injEq] at hfacts
  exact hfacts

end Workspace

end Purview

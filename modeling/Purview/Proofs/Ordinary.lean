/-
Updates that leave the projects alone. A batch that names every
document once, and makes or unmakes no project, moves no plan: projects
are sent back by it, but only those that depend on the owner of a
document that it edits or drops (`spares_changed`).

That is what makes the search for documents to relink complete. If a
document is passed over, nothing in its horizon is named; so no project
in its closure has been sent back, since it would see the document on
whose account it was; so its closure is whole when it is searched again
behind the changes, and if nothing that it sees then is named either,
it sees what it saw before (`scopeOf_spared`). No horizon is carried
into the build that the build makes wrong, since it reads no project
(`not_misleads`). Over any run of such updates the documents are as in
a rebuilt workspace (`updates_agree`). The files that it is rebuilt from
are read off the documents here; what they are by the files and batches
alone is the subject of `Proofs.Survivors`.
-/
import Purview.Proofs.Rebuild

namespace Purview

/-- A change that neither makes nor unmakes a project, or is none at
all. -/
def Change.isOrdinary (s : Store) : Change → Bool
  | .edit file =>
    match s.get? file.uri with
    | none => !(Document.read file.text).announces
    | some d =>
      d.builtin || !d.isProject && !(Document.read file.text).announces
  | .removal u => (s.get? u).all fun d => d.builtin || !d.isProject

namespace Store

-- ======================================================= ordinary changes

/-- What ordinary changes make of the loaded documents: those that are
named are ordinary before and after, some projects are sent back, and
all else stays. A project is sent back on account of a named document
whose owner it depends on. -/
structure Spares (s t : Store) (named back : List Uri) : Prop where
  others : ∀ v, v ∉ named → t.get? v = (s.get? v).map fun d =>
    if v ∈ back then d.sentBack else d
  order : t.uris.filter (· ∉ named) = s.uris.filter (· ∉ named)
  before : ∀ v ∈ named, s.isProject v = false
  after : ∀ v ∈ named, ∀ d, t.get? v = some d →
    d.isProject = false ∧ d.announces = false
  reason : ∀ w ∈ back, ∃ y ∈ named, y ∈ s.uris
    ∧ ∃ r, s.projects.ownerOf? y = some r
      ∧ w ∈ s.projects.dependents r.uri

theorem Spares.refl (s : Store) : Spares s s [] [] :=
  ⟨fun v _ => by simp, rfl, (fun v hv => nomatch hv),
    (fun v hv => nomatch hv), (fun w hw => nomatch hw)⟩

variable {s t : Store} {named back : List Uri}

/-- The projects once ordinary changes have been made. -/
theorem Spares.projects (h : Spares s t named back) :
    t.projects = s.projects.map (Project.sentBack back) := by
  -- the named documents add nothing to the projects
  have hskip : ∀ r : Store, (∀ v ∈ named, r.isProject v = false) →
      r.projects = (r.uris.filter (· ∉ named)).filterMap fun v =>
        (r.get? v).bind fun d => Project.ofEntry? (v, d) := by
    intro r hr
    rw [projects_eq_filterMap, List.filterMap_filter]
    refine List.filterMap_congr fun v _ => ?_
    split
    · rfl
    · next hv =>
      have hv : v ∈ named := by simpa using hv
      cases hd : r.get? v with
      | none => rfl
      | some d =>
        have hord := hr v hv
        rw [isProject_of_get? hd] at hord
        exact Project.ofEntry?_eq_none.2
          (by simpa [Document.isProject] using hord)
  have hafter : ∀ v ∈ named, t.isProject v = false := by
    intro v hv
    cases hd : t.get? v with
    | none => simp [isProject, hd]
    | some d => rw [isProject_of_get? hd, (h.after v hv d hd).1]
  rw [hskip t hafter, hskip s h.before, h.order, List.map_filterMap]
  refine List.filterMap_congr fun v hv => ?_
  have hv : v ∉ named := by simpa using (List.mem_filter.1 hv).2
  rw [h.others v hv]
  cases s.get? v with
  | none => rfl
  | some d => exact Project.ofEntry?_sentBack back v d

/-- Ordinary changes move no plan. -/
theorem Spares.plan (h : Spares s t named back) : t.plan = s.plan := by
  unfold Store.plan Projects.plan
  rw [h.projects, List.map_map]
  refine List.map_congr_left fun p _ => ?_
  rw [Function.comp_apply, p.uri_sentBack, p.descriptor_sentBack]

/-- A document that is not named is still there, a project or a builtin
if it was one. -/
theorem Spares.loaded (h : Spares s t named back) {v : Uri} (hv : v ∉ named)
    {d : Document} (hd : s.get? v = some d) :
    ∃ x, t.get? v = some x ∧ x.builtin = d.builtin
      ∧ x.isProject = d.isProject := by
  have hget := h.others v hv
  rw [hd, Option.map_some] at hget
  refine ⟨_, hget, ?_, ?_⟩
  · split
    · exact d.alike_sentBack.builtin
    · rfl
  · unfold Document.isProject
    split
    · rw [d.descriptor?_sentBack]
    · rfl

/-- What sends a document back that a change to a loaded ordinary one
recalls: it depends on the owner of that one, which no change has moved. -/
theorem Spares.owner_of_mem_recalled (h : Spares s t named back)
    {c : Change} {x : Document} (hx : t.get? c.uri = some x)
    (hb : x.builtin = false) (hord : x.isProject = false) {w : Uri}
    (hw : w ∈ t.recalled c) :
    ∃ r, s.projects.ownerOf? c.uri = some r
      ∧ w ∈ s.projects.dependents r.uri := by
  rw [recalled_of_loaded hx hb] at hw
  unfold concerned at hw
  simp only [hx, hord, Bool.false_eq_true, if_false] at hw
  rw [Projects.affectedByDocument_of_plan h.plan] at hw
  unfold Projects.affectedByDocument at hw
  split at hw
  · cases hw
  · next r hr => exact ⟨r, hr, hw⟩

theorem Spares.text (h : Spares s t named back) {v : Uri}
    (hv : v ∉ named) :
    (t.get? v).map (·.text) = (s.get? v).map (·.text) := by
  rw [h.others v hv, Option.map_map]
  congr 1
  funext d
  rw [Function.comp_apply]
  split
  · exact d.alike_sentBack.text
  · rfl

/-- What an ordinary change can be: nothing, because a builtin stays or
there is nothing to drop; a new ordinary document; or a change to one
that is loaded. -/
theorem isOrdinary_cases {c : Change} (h : c.isOrdinary s = true) :
    (∃ d, s.get? c.uri = some d ∧ d.builtin = true)
    ∨ (∃ u, c = .removal u ∧ s.get? u = none)
    ∨ (∃ file, c = .edit file ∧ s.get? file.uri = none
      ∧ (Document.read file.text).announces = false)
    ∨ ∃ d, s.get? c.uri = some d ∧ d.builtin = false
      ∧ d.isProject = false ∧ ∀ file, c = .edit file →
        (Document.read file.text).announces = false := by
  unfold Change.isOrdinary at h
  cases c with
  | edit file =>
    dsimp only [Change.uri] at h ⊢
    cases hd : s.get? file.uri with
    | none =>
      rw [hd] at h
      exact .inr (.inr (.inl ⟨file, rfl, hd, by simpa using h⟩))
    | some d =>
      rw [hd] at h
      cases hb : d.builtin with
      | true => exact .inl ⟨d, rfl, hb⟩
      | false =>
        simp only [hb, Bool.false_or, Bool.and_eq_true,
          Bool.not_eq_true'] at h
        refine .inr (.inr (.inr ⟨d, rfl, hb, h.1, ?_⟩))
        rintro _ ⟨⟩
        exact h.2
  | removal u =>
    dsimp only [Change.uri] at h ⊢
    cases hd : s.get? u with
    | none => exact .inr (.inl ⟨u, rfl, hd⟩)
    | some d =>
      rw [hd] at h
      cases hb : d.builtin with
      | true => exact .inl ⟨d, rfl, hb⟩
      | false =>
        refine .inr (.inr (.inr ⟨d, rfl, hb, by simpa [hb] using h, ?_⟩))
        intro file hfile
        cases hfile

end Store

namespace Scene

variable (host : Host) {s : Store} {t : Scene} {named back : List Uri}

/-- A change that is none. -/
theorem apply_of_builtin {c : Change} {d : Document}
    (hd : t.store.get? c.uri = some d) (hb : d.builtin = true) :
    (t.apply host c).1 = t := by
  cases c with
  | edit file => exact congrArg Prod.fst (put_of_builtin host hd hb)
  | removal u =>
    have hbuiltin : t.store.isBuiltin u = true := by
      have hd : t.store.get? u = some d := hd
      simp [Store.isBuiltin, hd, hb]
    exact remove_of_builtin host hbuiltin

/-- Apart from the document that it names, a change leaves the load
order alone. -/
theorem filter_uris_apply {c : Change} {cs : List Uri}
    (hc : c.uri ∈ cs) :
    (t.apply host c).1.store.uris.filter (· ∉ cs)
      = t.store.uris.filter (· ∉ cs) := by
  rw [uris_apply]
  cases c with
  | edit file =>
    have hc : file.uri ∈ cs := hc
    unfold Distinct.insert
    dsimp only
    split
    · rfl
    · simp [List.filter_append, hc]
  | removal u =>
    have hc : u ∈ cs := hc
    dsimp only
    split
    · rfl
    · rw [List.filter_filter]
      refine List.filter_congr fun v _ => ?_
      by_cases hv : v = u
      · simp [hv, hc]
      · simp [hv]

/-- One change to an ordinary document. -/
theorem spares_step {c : Change} (h : s.Spares t.store named back)
    (hs : s.isProject c.uri = false)
    (hrevised : ∀ d, t.store.revised c = some d →
      d.isProject = false ∧ d.announces = false)
    (hback : ∀ w ∈ t.store.recalled c, c.uri ∈ s.uris
      ∧ ∃ r, s.projects.ownerOf? c.uri = some r
        ∧ w ∈ s.projects.dependents r.uri) :
    s.Spares (t.apply host c).1.store (c.uri :: named)
      (back ++ t.store.recalled c) := by
  refine ⟨fun v hv => ?_, ?_, fun v hv => ?_, fun v hv d hd => ?_,
    fun w hw => ?_⟩
  · obtain ⟨hne, hv⟩ := not_or.1 (mt List.mem_cons.2 hv)
    rw [get?_apply, if_neg hne, h.others v hv, Option.map_map]
    congr 1
    funext d
    simp only [Function.comp_apply, List.mem_append]
    by_cases hb : v ∈ back
    · by_cases hr : v ∈ t.store.recalled c
      · simp [hb, hr]
      · simp [hb, hr]
    · simp [hb]
  · rw [filter_uris_apply host (List.mem_cons_self ..)]
    have hboth : ∀ us : List Uri, us.filter (· ∉ c.uri :: named)
        = (us.filter (· ∉ named)).filter (· ≠ c.uri) := by
      intro us
      rw [List.filter_filter]
      refine List.filter_congr fun v _ => ?_
      simp [List.mem_cons, not_or]
    rw [hboth, hboth, h.order]
  · rcases List.mem_cons.1 hv with rfl | hv
    · exact hs
    · exact h.before v hv
  · rw [get?_apply] at hd
    split at hd
    · exact hrevised d hd
    · next hne =>
      have hv := (List.mem_cons.1 hv).resolve_left hne
      obtain ⟨x, hx, rfl⟩ := Option.map_eq_some_iff.1 hd
      obtain ⟨hord, hann⟩ := h.after v hv x hx
      split
      · refine ⟨?_, ?_⟩
        · unfold Document.isProject
          rwa [x.descriptor?_sentBack]
        · unfold Document.announces
          rwa [x.alike_sentBack.text]
      · exact ⟨hord, hann⟩
  · rcases List.mem_append.1 hw with hw | hw
    · obtain ⟨y, hy, hreason⟩ := h.reason w hw
      exact ⟨y, List.mem_cons_of_mem _ hy, hreason⟩
    · exact ⟨c.uri, List.mem_cons_self .., hback w hw⟩

/-- A new ordinary document sends nothing back. -/
theorem spares_new {file : SourceFile} (h : s.Spares t.store named back)
    (hnew : file.uri ∉ named) (hd : s.get? file.uri = none)
    (hann : (Document.read file.text).announces = false) :
    s.Spares (t.apply host (.edit file)).1.store (file.uri :: named)
      (back ++ t.store.recalled (.edit file)) := by
  have hget : t.store.get? file.uri = none := by
    rw [h.others file.uri hnew, hd]
    rfl
  have hrecalled : t.store.recalled (.edit file) = [] := by
    rw [Store.recalled_of_none hget]
    have hord : (Document.read file.text).isProject = false := hann
    rw [hord]
    rfl
  refine spares_step host h ?_ ?_ ?_
  · show s.isProject file.uri = false
    simp [Store.isProject, hd]
  · intro x hx
    unfold Store.revised at hx
    simp only [hget] at hx
    obtain rfl := Option.some.inj hx
    exact ⟨hann, hann⟩
  · rw [hrecalled]
    intro w hw
    cases hw

/-- A change to a loaded ordinary document sends back what it concerned
before any of the changes. -/
theorem spares_loaded {c : Change} {d : Document}
    (h : s.Spares t.store named back) (hnew : c.uri ∉ named)
    (hd : s.get? c.uri = some d) (hb : d.builtin = false)
    (hord : d.isProject = false) (htext : ∀ file, c = .edit file →
      (Document.read file.text).announces = false) :
    s.Spares (t.apply host c).1.store (c.uri :: named)
      (back ++ t.store.recalled c) := by
  obtain ⟨x, hget, hxb, hxo⟩ := h.loaded hnew hd
  rw [hb] at hxb
  rw [hord] at hxo
  refine spares_step host h ?_ ?_ ?_
  · rw [Store.isProject_of_get? hd, hord]
  · intro y hy
    cases c with
    | edit file =>
      have hget : t.store.get? file.uri = some x := hget
      unfold Store.revised at hy
      simp only [hget, hxb, Bool.false_eq_true, if_false] at hy
      obtain rfl := Option.some.inj hy
      refine ⟨?_, htext file rfl⟩
      show x.outdated.descriptor?.isSome = false
      rw [x.descriptor?_outdated]
      exact hxo
    | removal u =>
      have hget : t.store.get? u = some x := hget
      unfold Store.revised at hy
      simp only [hget, Option.filter_some, hxb] at hy
      cases hy
  · intro w hw
    exact ⟨(Store.isSome_get? s c.uri).1 (by rw [hd]; rfl),
      h.owner_of_mem_recalled hget hxb hxo hw⟩

/-- An ordinary change spares what it does not name. -/
theorem spares_apply {c : Change} (h : s.Spares t.store named back)
    (hnew : c.uri ∉ named) (hc : c.isOrdinary s = true) :
    ∃ named' back', s.Spares (t.apply host c).1.store named' back'
      ∧ ∀ v ∈ named', v ∈ named ∨ v = c.uri := by
  rcases Store.isOrdinary_cases hc with ⟨d, hd, hb⟩ | ⟨u, rfl, hd⟩
    | ⟨file, rfl, hd, hann⟩ | ⟨d, hd, hb, hord, htext⟩
  · -- a builtin stays
    obtain ⟨x, hget, hxb, -⟩ := h.loaded hnew hd
    rw [apply_of_builtin host hget (hxb.trans hb)]
    exact ⟨named, back, h, fun v hv => .inl hv⟩
  · -- there is nothing to drop
    have hget : t.store.get? u = none := by rw [h.others u hnew, hd]; rfl
    have hnone : (t.apply host (.removal u)).1 = t := by
      exact remove_of_none host hget
    rw [hnone]
    exact ⟨named, back, h, fun v hv => .inl hv⟩
  · exact ⟨_, _, spares_new host h hnew hd hann,
      fun v hv => (List.mem_cons.1 hv).symm⟩
  · exact ⟨_, _, spares_loaded host h hnew hd hb hord htext,
      fun v hv => (List.mem_cons.1 hv).symm⟩

/-- Ordinary changes to different documents spare what they do not
name. -/
theorem spares_foldl (cs : List Change) (h : s.Spares t.store named back)
    (hnd : (cs.map Change.uri).Nodup)
    (hnew : ∀ c ∈ cs, c.uri ∉ named)
    (hcs : ∀ c ∈ cs, c.isOrdinary s = true) :
    ∃ named' back', s.Spares
        (cs.foldl (fun t c => (t.apply host c).1) t).store named' back'
      ∧ ∀ v ∈ named', v ∈ named ∨ v ∈ cs.map Change.uri := by
  induction cs generalizing t named back with
  | nil => exact ⟨named, back, h, fun v hv => .inl hv⟩
  | cons c cs ih =>
    obtain ⟨hc, hnd⟩ := List.nodup_cons.1 hnd
    obtain ⟨named₁, back₁, h₁, hnamed₁⟩ := spares_apply host h
      (hnew c (List.mem_cons_self ..)) (hcs c (List.mem_cons_self ..))
    obtain ⟨named₂, back₂, h₂, hnamed₂⟩ := ih h₁ hnd
      (fun x hx hmem => by
        rcases hnamed₁ _ hmem with hmem | heq
        · exact hnew x (List.mem_cons_of_mem _ hx) hmem
        · exact hc (heq ▸ List.mem_map_of_mem hx))
      (fun x hx => hcs x (List.mem_cons_of_mem _ hx))
    refine ⟨named₂, back₂, h₂, fun v hv => ?_⟩
    rw [List.map_cons, List.mem_cons]
    rcases hnamed₂ v hv with hv | hv
    · rcases hnamed₁ v hv with hv | hv
      · exact .inl hv
      · exact .inr (.inl hv)
    · exact .inr (.inr hv)

/-- A batch of ordinary changes to different documents spares what it
does not name. -/
theorem spares_changed (s : Scene) {changes : List Change}
    (hnd : (changes.map Change.uri).Nodup)
    (hcs : ∀ c ∈ changes, c.isOrdinary s.store = true) :
    ∃ named back, s.store.Spares (s.changed host changes).store named back
      ∧ ∀ v ∈ named, v ∈ changes.map Change.uri := by
  have hperm : (ordered changes).Perm changes :=
    List.filter_append_perm Change.isRemoval changes
  have hnd' : ((ordered changes).map Change.uri).Nodup :=
    (hperm.map Change.uri).nodup_iff.2 hnd
  unfold changed
  rw [applyAll_eq]
  obtain ⟨named, back, h, hnamed⟩ := spares_foldl host
    (ordered changes) (t := (s.relinkCandidates (Distinct.ofList
      (changes.map Change.uri))).1) (.refl s.store) hnd'
      (fun _ _ hmem => nomatch hmem)
    fun c hc => hcs c (mem_ordered.1 hc)
  refine ⟨named, back, h, fun v hv => ?_⟩
  exact (hperm.map Change.uri).mem_iff.1
    ((hnamed v hv).resolve_left fun h => nomatch h)

end Scene

-- ========================================================= being passed over

/-- Who is not concerned by a change has an owner and sees nothing that
changes. -/
theorem Horizon.seen_of_not_meets {h : Horizon} {changed : List Uri}
    (hm : h.meets changed = false) :
    ∃ seen, h.visible = .only seen ∧ ∀ v ∈ seen, v ∉ changed := by
  unfold meets at hm
  simp only [Bool.or_eq_false_iff] at hm
  obtain ⟨⟨hall, hseen⟩, -⟩ := hm
  cases hv : h.visible with
  | all =>
    rw [hv] at hall
    cases hall
  | only seen =>
    refine ⟨seen, rfl, fun v hmem hc => ?_⟩
    rw [hv] at hseen
    exact List.any_eq_false.1 hseen v hc (by simpa using hmem)

namespace Store

variable {s c t : Store} {named back changed builtins : List Uri}
  {u : Uri}

/-- The projects of complete documents are all linked, so that the plan
says all about them. -/
theorem Done.projects (h : s.Done) :
    s.projects = s.plan.map fun e => ⟨e.1, e.2, .validated⟩ := by
  unfold plan Projects.plan
  rw [List.map_map]
  refine (List.map_id _).symm.trans (List.map_congr_left fun p hp => ?_)
  obtain ⟨d, hd, -, hstage⟩ := mem_projects.1 hp
  have hvalidated : p.stage = .validated := hstage.symm.trans (h.stage hd)
  rw [id, Function.comp_apply, ← hvalidated]

theorem Done.linked (h : s.Done) :
    ∀ p ∈ s.projects, Stage.linked ≤ p.stage := by
  intro p hp
  rw [h.projects] at hp
  obtain ⟨e, -, rfl⟩ := List.mem_map.1 hp
  exact show Stage.linked ≤ Stage.validated by decide

/-- What a document with an owner sees. -/
theorem visible_of_owner {p : Project}
    (hp : s.projects.ownerOf? u = some p) (builtins : List Uri) :
    (Horizon.of s builtins u).visible = .only (Distinct.union
      (s.uris.filter fun v => v ≠ u
        ∧ (Horizon.of s builtins u).folders.any v.isWithin)
      (builtins.filter (· ≠ u))) := by
  unfold Horizon.of
  rw [hp]

/-- What two lists have that differ in named documents only, if nothing
named is asked for. -/
theorem filter_of_order {us vs : List Uri} {test : Uri → Bool}
    (h : us.filter (· ∉ named) = vs.filter (· ∉ named))
    (hus : ∀ v ∈ us.filter test, v ∉ named)
    (hvs : ∀ v ∈ vs.filter test, v ∉ named) :
    us.filter test = vs.filter test := by
  have hskip : ∀ ws : List Uri, (∀ v ∈ ws.filter test, v ∉ named) →
      ws.filter test = (ws.filter (· ∉ named)).filter test := by
    intro ws hws
    rw [List.filter_filter]
    refine List.filter_congr fun v hv => ?_
    cases htest : test v with
    | false => rfl
    | true =>
      have hnot := hws v (List.mem_filter.2 ⟨hv, htest⟩)
      simp [hnot]
  rw [hskip us hus, hskip vs hvs, h]

/-- If nothing that a document sees is named, no project in its closure
is sent back: the project would depend on the owner of a named document,
which would be seen then. -/
theorem Spares.closure_kept (h : Spares s c named back) (hs : s.Done)
    (hu : u ∉ named) {seen : List Uri}
    (hseen : (Horizon.of s builtins u).visible = .only seen)
    (hnot : ∀ v ∈ seen, v ∉ named) :
    ∀ w ∈ (Horizon.of s builtins u).closure, w ∉ back := by
  intro w hw hback
  obtain ⟨y, hy, hloaded, r, hr, hdep⟩ := h.reason w hback
  have hnd := s.uris_projects_nodup
  refine hnot y ?_ hy
  unfold Horizon.of at hw hseen
  cases hp : s.projects.ownerOf? u with
  | none =>
    rw [hp] at hw
    cases hw
  | some p =>
    rw [hp] at hw hseen
    -- the owner of the named document is in the closure too
    have hw : w ∈ s.projects.closure .linked p.uri := hw
    have hr' : r.uri ∈ s.projects.closure .linked p.uri := by
      rw [Projects.closure_linked hs.linked] at hw ⊢
      obtain ⟨hroot, hway⟩ := (Projects.mem_closure _).1 hw
      exact (Projects.mem_closure _).2 ⟨hroot,
        hway.trans (Projects.reaches_of_mem_dependents hnd hdep)⟩
    have howns := List.find?_some (p := fun q : Project => q.owns y) hr
    have hfolder : (s.projects.folders (s.projects.closure .linked
        p.uri)).any y.isWithin = true :=
      Projects.any_folders.2 ⟨r.uri, hr', r,
        Projects.get?_of_mem hnd (List.mem_of_find?_eq_some hr), howns⟩
    obtain rfl := Visibility.only.inj hseen
    refine Distinct.mem_union.2 (.inl (List.mem_filter.2 ⟨hloaded, ?_⟩))
    rw [decide_eq_true_eq]
    exact ⟨fun heq => hu (heq ▸ hy), hfolder⟩

/-- A document in whose horizon nothing is named, neither before the
changes nor behind them, has the scope that it had. -/
theorem scopeOf_spared (h : Spares s c named back)
    (hnamed : ∀ v ∈ named, v ∈ changed) (hs : s.Done) (ht : t.Done)
    (huris : t.uris = c.uris) (hplan : t.plan = s.plan)
    (htext : ∀ v, v ∉ named →
      (t.get? v).map (·.text) = (s.get? v).map (·.text))
    (hu : u ∉ changed)
    (hbefore : (Horizon.of s builtins u).meets changed = false)
    (hafter : (Horizon.of c builtins u).meets changed = false) :
    t.scopeOf builtins u = s.scopeOf builtins u := by
  have hprojects : t.projects = s.projects := by
    rw [ht.projects, hs.projects, hplan]
  have hsame : (Horizon.of t builtins u).closure
        = (Horizon.of s builtins u).closure
      ∧ (Horizon.of t builtins u).folders
        = (Horizon.of s builtins u).folders := by
    unfold Horizon.of
    rw [hprojects]
    split <;> exact ⟨rfl, rfl⟩
  obtain ⟨seen, hseen, hnot⟩ := Horizon.seen_of_not_meets hbefore
  -- behind the changes the closure is whole
  have hwhole : Horizon.of c builtins u = Horizon.of t builtins u := by
    refine horizon_sentBack huris.symm (by rw [h.projects, hprojects])
      builtins ?_
    rw [hsame.1]
    exact h.closure_kept hs (fun hmem => hu (hnamed u hmem)) hseen
      fun v hv hmem => hnot v hv (hnamed v hmem)
  rw [hwhole] at hafter
  obtain ⟨seen', hseen', hnot'⟩ := Horizon.seen_of_not_meets hafter
  have hvisible : seen' = seen := by
    cases hp : s.projects.ownerOf? u with
    | none =>
      unfold Horizon.of at hseen
      rw [hp] at hseen
      cases hseen
    | some p =>
      have hp' : t.projects.ownerOf? u = some p := by rw [hprojects, hp]
      obtain rfl := Visibility.only.inj
        ((visible_of_owner hp builtins).symm.trans hseen)
      obtain rfl := Visibility.only.inj
        ((visible_of_owner hp' builtins).symm.trans hseen')
      rw [hsame.2] at hnot' ⊢
      congr 1
      refine filter_of_order (huris ▸ h.order) ?_ ?_
      · exact fun v hv hmem =>
          hnot' v (Distinct.mem_union.2 (.inl hv)) (hnamed v hmem)
      · exact fun v hv hmem =>
          hnot v (Distinct.mem_union.2 (.inl hv)) (hnamed v hmem)
  subst hvisible
  unfold scopeOf
  rw [hseen, hseen']
  congr 1
  unfold offersOf
  refine List.filterMap_congr fun v hv => ?_
  rw [ht.offered, hs.offered, htext v fun hmem => hnot v hv (hnamed v hmem)]

-- ======================================================= reading no project

/-- Every document is the project that its text describes, so that
reading it makes and unmakes none. -/
def Current (s : Store) : Prop :=
  ∀ v d, s.get? v = some d →
    d.descriptor? = (Content.ofText d.text).1.descriptor?

theorem Done.current (h : s.Done) : s.Current := by
  intro v d hd
  obtain ⟨scope, hbuilt⟩ := h v d hd
  exact (congrArg Document.descriptor? hbuilt).trans
    (d.descriptor?_built v scope)

theorem Current.isProject (h : s.Current) (u : Uri) :
    s.isProject u = s.announces u := by
  cases hd : s.get? u with
  | none => simp [Store.isProject, announces, hd]
  | some d =>
    rw [isProject_of_get? hd, announces_of_get? hd, Document.isProject,
      h u d hd]
    rfl

/-- Sending documents back leaves them what they are. -/
theorem Current.sentBack (h : s.Current) {v : Uri} {x : Document}
    (hx : s.get? v = some x) (us : List Uri) :
    (if v ∈ us then x.sentBack else x).descriptor?
      = (Content.ofText (if v ∈ us then x.sentBack
        else x).text).1.descriptor? := by
  split
  · rw [x.descriptor?_sentBack, x.alike_sentBack.text]
    exact h v x hx
  · exact h v x hx

theorem Spares.current (h : Spares s c named back) (hs : s.Current) :
    c.Current := by
  intro v d hd
  by_cases hv : v ∈ named
  · obtain ⟨hord, hann⟩ := h.after v hv d hd
    have hnone : d.descriptor? = none := by
      simpa [Document.isProject] using hord
    have hnone' : (Content.ofText d.text).1.descriptor? = none := by
      simpa [Document.announces] using hann
    rw [hnone, hnone']
  · rw [h.others v hv] at hd
    obtain ⟨x, hx, rfl⟩ := Option.map_eq_some_iff.1 hd
    exact hs.sentBack hx back

end Store

namespace Scene

variable {p t : Scene} {scope : Uri → LinkScope}

theorem current_prepared {s : Scene} {changes : List Change}
    (h : (s.changed .calm changes).store.Current) :
    (s.prepared .calm changes).store.Current := by
  intro v d hd
  rw [store_prepared, Store.get?_alter] at hd
  obtain ⟨x, hx, rfl⟩ := Option.map_eq_some_iff.1 hd
  exact h.sentBack hx _

/-- Relinking and building leave the texts alone. -/
theorem text_prepared (s : Scene) (changes : List Change) (v : Uri) :
    ((s.prepared .calm changes).store.get? v).map (·.text)
      = ((s.changed .calm changes).store.get? v).map (·.text) := by
  rw [store_prepared, Store.get?_alter, Option.map_map]
  congr 1
  funext d
  rw [Function.comp_apply]
  split
  · exact d.alike_sentBack.text
  · rfl

theorem Finishes.text (h : p.Finishes scope t) (v : Uri) :
    (t.store.get? v).map (·.text) = (p.store.get? v).map (·.text) := by
  rw [h.get?, Option.map_map]
  congr 1
  funext d
  rw [Function.comp_apply]
  split <;> rfl

/-- A build that makes and unmakes no project leaves the plan alone. -/
theorem Finishes.plan (h : p.Finishes scope t) (hp : p.store.Current) :
    t.store.plan = p.store.plan :=
  plan_completed hp h.completed

/-- If it works on a project, it forgets everything. -/
theorem not_lapses_of_current (host : Host) (hp : p.store.Current) :
    ¬ p.Lapses host := by
  intro hcase
  rcases hcase with ⟨⟨hw, ⟨u, hu, hproject⟩, hforgets⟩, -⟩
  refine hforgets ⟨hw, .inl ⟨u, List.mem_filter.2 ⟨hu, hproject⟩, ?_⟩⟩
  rw [← hp.isProject u, hproject]

/-- If it works on none, it moves no horizon. -/
theorem sameLayout_build_of_current (host : Host)
    (hs : p.store.Faithful) (hp : p.store.Current)
    (hnone : p.store.pending.any p.store.announces = false) :
    Store.SameLayout (p.build host).1.store p.store := by
  have hnot : ∀ u ∈ p.store.pending, p.store.announces u = false :=
    fun u hu => by simpa using List.any_eq_false.1 hnone u hu
  refine ((build_index host hs).2 ?_).2 (.inl fun u hu => ?_)
  · intro hcase
    rcases hcase with ⟨-, ⟨u, hu, hann⟩ | ⟨-, u, hu, hann⟩⟩
    · rw [hnot u (List.mem_filter.1 hu).1] at hann
      cases hann
    · rw [hnot u hu] at hann
      cases hann
  · rw [hp.isProject u, hnot u hu]

/-- So what is carried into it is still right behind it. -/
theorem carried_of_current (hs : p.store.Faithful) (hp : p.store.Current)
    (hright : p.Right) {u : Uri} {hor : Horizon}
    (h : p.carried u = some hor) :
    hor = Horizon.of (p.build .calm).1.store p.index.builtins u := by
  unfold carried at h
  split at h
  · cases h
  · next hany =>
    have hlayout := sameLayout_build_of_current .calm hs hp
      (by simpa using hany)
    rw [Store.horizon_of_layout hlayout]
    exact hright.computed _ (mem_of_lookup h)

/-- And no document is linked by a horizon that the build makes wrong. -/
theorem not_misleads {s : Scene} {changes : List Change}
    (hs : (s.prepared .calm changes).store.Faithful)
    (hp : (s.prepared .calm changes).store.Current)
    (hright : (s.prepared .calm changes).Right) (u : Uri) :
    ¬ s.Misleads changes u := by
  intro hcase
  rcases hcase with ⟨d, hor, -, -, -, hcarried, hne⟩
  refine hne ?_
  rw [carried_of_current hs hp hright hcarried, update_eq,
    build_builtins .calm hs]
  rfl

-- ============================================================== one update

/-- A scene whose documents are complete, lead where they should, and
are rightly remembered. -/
structure Tidy (builtins : List SourceFile) (s : Scene) : Prop where
  regular : s.Regular builtins
  done : s.store.Done
  right : s.Right
  settled : s.store.Settled s.index.builtins

/-- A linked ordinary document that a search does not find is not
concerned by the batch. -/
theorem not_meets_of_not_found {s : Scene} (h : s.Right)
    {changed : List Uri} {u : Uri} {d : Document}
    (hd : s.store.get? u = some d)
    (hd' : relinkable changed u d = true)
    (hu : u ∉ (s.relinkCandidates changed).2) :
    (Horizon.of s.store s.index.builtins u).meets changed = false := by
  rw [← Index.look_eq_of h, ← Bool.not_eq_true]
  intro hmeets
  exact hu (mem_relinkCandidates.2 ⟨d, hd, hd', .inr (.inr hmeets)⟩)

variable {builtins : List SourceFile} {s : Scene} {changes : List Change}

/-- No document is passed over that would lead somewhere else. -/
theorem Tidy.not_overlooks (h : s.Tidy builtins)
    (hnd : (changes.map Change.uri).Nodup)
    (hcs : ∀ c ∈ changes, c.isOrdinary s.store = true) (u : Uri) :
    ¬ s.Overlooks changes u := by
  intro hcase
  rcases hcase with ⟨hu, hr, d, hd, hb, hord, hne⟩
  obtain ⟨named, back, hspares, hnamed⟩ :=
    spares_changed .calm s hnd hcs
  have hcurrent := current_prepared (hspares.current h.done.current)
  have hregular := h.regular.prepared changes
  obtain ⟨hregular', hdone', scope, hfinish⟩ := hregular.build
  have hright' := right_changed .calm h.right changes
  have hbuiltins' := (h.regular.changed changes).builtins
  have hplan : ((s.prepared .calm changes).build .calm).1.store.plan
      = s.store.plan := by
    rw [hfinish.plan hcurrent, Store.plan,
      (s.sameLayout_prepared .calm changes).2]
    exact hspares.plan
  -- neither search has found the document
  have hrelinkable : relinkable
      (Distinct.ofList (changes.map Change.uri)) u d = true := by
    have hstage := h.done.stage hd
    have hu' : u ∉ Distinct.ofList (changes.map Change.uri) := by
      rwa [Distinct.mem_ofList]
    simp only [relinkable, hu', hord, hb, hstage]
    decide
  obtain ⟨hr₁, hr₂⟩ := not_or.1 (mt Distinct.mem_union.2 hr)
  have hd' : (s.changed .calm changes).store.get? u = some d := by
    rw [get?_changed .calm hu (by rw [Store.isProject_of_get? hd, hord])]
    exact hd
  have hbefore := not_meets_of_not_found h.right hd hrelinkable hr₁
  have hafter := not_meets_of_not_found hright' hd' hrelinkable hr₂
  rw [h.regular.builtins] at hbefore
  rw [hbuiltins'] at hafter
  refine hne ?_
  rw [h.settled u d hd hb hord, update_eq, h.regular.builtins,
    hregular'.builtins, Store.scopeOf_spared hspares
      (fun v hv => Distinct.mem_ofList.2 (hnamed v hv)) h.done hdone' ?_
      hplan ?_ (by rwa [Distinct.mem_ofList]) hbefore hafter]
  · rw [hfinish.completed.uris, store_prepared, Store.uris_alter]
  · intro v hv
    rw [hfinish.text, text_prepared, hspares.text hv]

/-- An update with ordinary changes keeps a scene tidy. -/
theorem Tidy.update (h : s.Tidy builtins)
    (hnd : (changes.map Change.uri).Nodup)
    (hcs : ∀ c ∈ changes, c.isOrdinary s.store = true) :
    (s.update .calm changes).1.Tidy builtins := by
  obtain ⟨named, back, hspares, -⟩ := spares_changed .calm s hnd hcs
  have hcurrent := current_prepared (hspares.current h.done.current)
  have hfaithful := (h.regular.prepared changes).ready.faithful
  have hright := right_prepared .calm h.right changes
  obtain ⟨hregular, hdone⟩ := h.regular.update changes
  refine ⟨hregular, hdone, ?_, ?_⟩
  · rw [update_eq]
    exact right_build .calm hfaithful hright
      (not_lapses_of_current .calm hcurrent)
  · exact (settled_update_iff h.regular h.done changes).2 fun u =>
      ⟨h.not_overlooks hnd hcs u, not_misleads hfaithful hcurrent hright u⟩

end Scene

-- ==================================================================== runs

namespace Workspace

/-- Whether a batch names every document once and neither makes nor
unmakes a project. -/
def isOrdinaryBatch (w : Workspace) (changes : List Change) : Bool :=
  decide (changes.map Change.uri).Nodup
    && changes.all (·.isOrdinary w.store)

/-- Whether each of some batches is ordinary when its turn comes. -/
def isOrdinaryRun (w : Workspace) : List (List Change) → Bool
  | [] => true
  | changes :: batches =>
    w.isOrdinaryBatch changes && (w.updated changes).isOrdinaryRun batches

/-- A workspace after undisturbed updates. -/
def updates (w : Workspace) (batches : List (List Change)) : Workspace :=
  batches.foldl updated w

variable {builtins : List SourceFile} {w : Workspace}

/-- A workspace that starts undisturbed is tidy. -/
theorem tidy_started (builtins files : List SourceFile) :
    (started builtins files).1.scene.Tidy builtins := by
  obtain ⟨hregular, hdone⟩ := regular_opened builtins [] files
  obtain ⟨-, -, hget, hbuiltins, -⟩ := first_build builtins [] files
  rw [opened_nil] at hregular hdone
  rw [started_eq] at hregular hdone ⊢
  refine ⟨hregular, hdone, ?_, ?_⟩
  · have hfaithful := (regular_loaded builtins [] files).ready.faithful
    exact (build_step .calm hfaithful (Index.right_clear _ _)).2.1
      (not_lapses_loaded _ _ _)
  · intro u d hd _ hord
    dsimp only at hd
    rw [hget] at hd
    obtain ⟨x, -, rfl⟩ := Option.map_eq_some_iff.1 hd
    rw [x.isProject_built] at hord
    refine congrArg some ?_
    show x.reading.link u (scopeAt _ _ u x) = x.reading.link u _
    rw [scopeAt, hord, hbuiltins]
    rfl

theorem tidy_updated (h : w.scene.Tidy builtins) {changes : List Change}
    (hc : w.isOrdinaryBatch changes = true) :
    (w.updated changes).scene.Tidy builtins := by
  obtain ⟨hnd, hcs⟩ := Bool.and_eq_true_iff.1 hc
  have hbegun : (w.begin false).scene.Tidy builtins :=
    ⟨h.regular.begin, h.done, h.right, h.settled⟩
  rw [scene_updated]
  exact hbegun.update (of_decide_eq_true hnd) (List.all_eq_true.1 hcs)

/-- Ordinary updates keep a workspace tidy. -/
theorem tidy_updates (h : w.scene.Tidy builtins)
    {batches : List (List Change)}
    (hrun : w.isOrdinaryRun batches = true) :
    (w.updates batches).scene.Tidy builtins := by
  induction batches generalizing w with
  | nil => exact h
  | cons changes batches ih =>
    obtain ⟨hfirst, hrest⟩ := Bool.and_eq_true_iff.1 hrun
    unfold updates
    rw [List.foldl_cons]
    exact ih (tidy_updated h hfirst) hrest

/-- After any run of ordinary updates all documents are complete, and
the ordinary ones are as in a rebuilt workspace. -/
theorem updates_agree (builtins files : List SourceFile)
    (batches : List (List Change))
    (h : (started builtins files).1.isOrdinaryRun batches = true) :
    let w := (started builtins files).1.updates batches
    (∀ u d, w.store.get? u = some d → d.stage = .validated)
    ∧ w.store.Agrees (rebuilt builtins w.store).store := by
  have htidy := tidy_updates (tidy_started builtins files) h
  refine ⟨fun u d hd => ?_, ?_⟩
  · obtain ⟨scope, hbuilt⟩ := htidy.done u d hd
    exact congrArg Document.stage hbuilt
  · refine (agrees_rebuilt_iff htidy.regular.founded htidy.done).2 ?_
    rw [← htidy.regular.builtins]
    exact htidy.settled

/-- A project that depends on another, with a document in each of them. -/
def paired : List SourceFile :=
  [⟨Uri.ofString "/p/P.sysw",
      "project P \x7b depends Q; source \"src\"; \x7d"⟩,
    ⟨Uri.ofString "/q/Q.sysw", "project Q \x7b source \"src\"; \x7d"⟩,
    ⟨Uri.ofString "/p/src/e.sysw", "ref A;"⟩,
    ⟨Uri.ofString "/q/src/x.sysw", "def A;"⟩]

/-- The definition moves to a new document of the same project, and the
old document is dropped. -/
def moving : List (List Change) :=
  [[.edit ⟨Uri.ofString "/q/src/x.sysw", "def B;"⟩,
      .edit ⟨Uri.ofString "/q/src/y.sysw", "def A;"⟩],
    [.removal (Uri.ofString "/q/src/x.sysw")]]

theorem updates_agree_moving :
    (started [] paired).1.isOrdinaryRun moving = true
    ∧ ((started [] paired).1.updates moving).store.Agrees
      (rebuilt [] ((started [] paired).1.updates moving).store).store := by
  have h : (started [] paired).1.isOrdinaryRun moving = true := by
    decide +kernel
  exact ⟨h, (updates_agree [] paired moving h).2⟩

end Workspace

end Purview

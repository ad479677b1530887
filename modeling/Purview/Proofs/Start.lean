/-
What a workspace comes to that starts undisturbed. Loading is a matter
of identities: the builtins come first, each in the place where its
identity first stands and with the last of its texts, and the other
documents follow in the same way, except that a builtin is not replaced
(`loaded_waiting`). Nothing has been built yet and nothing is remembered,
so the first build goes through all of them, and every reference leads
where the rule says (`started_resolved`).
-/
import Purview.Proofs.Coherence
import Purview.Proofs.Prescribed

namespace Purview

/-- The text that comes last under an identity. -/
def lastText (files : List SourceFile) (u : Uri) : Option String :=
  (files.reverse.find? (·.uri = u)).map (·.text)

theorem lastText_cons (file : SourceFile) (files : List SourceFile)
    (u : Uri) : lastText (file :: files) u
      = (lastText files u).or
        (if u = file.uri then some file.text else none) := by
  unfold lastText
  rw [List.reverse_cons, List.find?_append, Option.map_or]
  congr 1
  rw [List.find?_cons]
  by_cases h : u = file.uri
  · simp [h]
  · have h' : ¬ file.uri = u := fun heq => h heq.symm
    simp [h, h']

/-- Whoever has a last text is among the files. -/
theorem mem_of_lastText {files : List SourceFile} {u : Uri}
    {text : String} (h : lastText files u = some text) :
    u ∈ Distinct.ofList (files.map (·.uri)) := by
  obtain ⟨file, hfile, -⟩ := Option.map_eq_some_iff.1 h
  rw [Distinct.mem_ofList]
  have hmem := List.mem_reverse.1 (List.mem_of_find?_eq_some hfile)
  have huri := List.find?_some hfile
  rw [decide_eq_true_eq] at huri
  exact huri ▸ List.mem_map_of_mem hmem

/-- And whoever is among them has one. -/
theorem lastText_of_mem {files : List SourceFile} {u : Uri}
    (h : u ∈ Distinct.ofList (files.map (·.uri))) :
    ∃ text, lastText files u = some text := by
  rw [Distinct.mem_ofList] at h
  obtain ⟨file, hfile, rfl⟩ := List.mem_map.1 h
  have hsome : (files.reverse.find? (·.uri = file.uri)).isSome := by
    rw [List.find?_isSome]
    exact ⟨file, List.mem_reverse.2 hfile, by simp⟩
  obtain ⟨x, hx⟩ := Option.isSome_iff_exists.1 hsome
  exact ⟨x.text, by rw [lastText, hx]; rfl⟩

/-- So nobody without a last text is among the files. -/
theorem notMem_of_lastText {files : List SourceFile} {u : Uri}
    (h : lastText files u = none) :
    u ∉ Distinct.ofList (files.map (·.uri)) := by
  intro hmem
  obtain ⟨text, htext⟩ := lastText_of_mem hmem
  rw [h] at htext
  cases htext

/-- A builtin that has just been read. -/
def Document.ofBuiltin (text : String) : Document :=
  { Document.read text with builtin := true }

-- ============================================================= loading

namespace Scene

theorem get?_addBuiltin (host : Host) (s : Scene) (file : SourceFile)
    (u : Uri) : (addBuiltin host s file).store.get? u
      = if u = file.uri then some (.ofBuiltin file.text)
        else s.store.get? u := by
  show ((s.store.insert file.uri (.read file.text)).modify file.uri
    ({ · with builtin := true })).get? u = _
  rw [Store.get?_modify, Store.get?_insert]
  split <;> rfl

theorem uris_addBuiltin (host : Host) (s : Scene) (file : SourceFile) :
    (addBuiltin host s file).store.uris
      = Distinct.insert s.store.uris file.uri := by
  show ((s.store.insert file.uri (.read file.text)).modify file.uri
    ({ · with builtin := true })).uris = _
  rw [Store.uris_modify, Store.uris_insert]
  rfl

/-- Loading the builtins. -/
theorem foldl_addBuiltin (files : List SourceFile) (s : Scene) :
    let t := files.foldl (addBuiltin .calm) s
    t.store.uris = Distinct.union s.store.uris (files.map (·.uri))
    ∧ t.index.builtins
      = Distinct.union s.index.builtins (files.map (·.uri))
    ∧ (∀ u, t.store.get? u
      = ((lastText files u).map Document.ofBuiltin).or (s.store.get? u))
    ∧ t.trace.withdrawn = s.trace.withdrawn := by
  induction files generalizing s with
  | nil => exact ⟨rfl, rfl, fun _ => rfl, rfl⟩
  | cons file files ih =>
    obtain ⟨huris, hbuiltins, hget, hw⟩ := ih (addBuiltin .calm s file)
    refine ⟨?_, ?_, fun u => ?_, ?_⟩
    · rw [List.foldl_cons, huris, uris_addBuiltin]
      rfl
    · rw [List.foldl_cons, hbuiltins]
      rfl
    · rw [List.foldl_cons, hget, get?_addBuiltin, lastText_cons]
      cases lastText files u with
      | some text => rfl
      | none => split <;> rfl
    · rw [List.foldl_cons, hw]
      show (s.trace.withdrawn || decide (none = some (Step.parse,
        file.uri))) = _
      simp

/-- An initial file is read, unless it would shadow a builtin. -/
theorem get?_addInitial (host : Host) (s : Scene) (file : SourceFile)
    (u : Uri) : (addInitial host s file).store.get? u
      = if u = file.uri ∧ s.store.isBuiltin u = false
        then some (.read file.text) else s.store.get? u := by
  unfold addInitial
  by_cases hu : u = file.uri
  · subst hu
    cases s.store.isBuiltin file.uri with
    | true => simp
    | false => simp [Store.get?_insert]
  · split
    · simp [hu]
    · simp [hu, Store.get?_insert]

theorem isBuiltin_addInitial (host : Host) (s : Scene)
    (file : SourceFile) (u : Uri) :
    (addInitial host s file).store.isBuiltin u = s.store.isBuiltin u := by
  unfold Store.isBuiltin
  rw [get?_addInitial]
  split
  · next h => exact h.2.symm
  · rfl

theorem uris_addInitial (host : Host) (s : Scene) (file : SourceFile) :
    (addInitial host s file).store.uris
      = Distinct.insert s.store.uris file.uri := by
  unfold addInitial Distinct.insert
  cases hb : s.store.isBuiltin file.uri with
  | true =>
    have hmem : file.uri ∈ s.store.uris := by
      rw [← Store.isSome_get?]
      unfold Store.isBuiltin at hb
      cases hd : s.store.get? file.uri with
      | none => rw [hd] at hb; cases hb
      | some d => rfl
    rw [if_pos hmem]
    rfl
  | false => exact Store.uris_insert _ _ _

/-- Loading the documents of a start. -/
theorem foldl_addInitial (files : List SourceFile) (s : Scene) :
    let t := files.foldl (addInitial .calm) s
    t.store.uris = Distinct.union s.store.uris (files.map (·.uri))
    ∧ t.index = s.index
    ∧ (∀ u, t.store.get? u = if s.store.isBuiltin u then s.store.get? u
      else ((lastText files u).map Document.read).or (s.store.get? u))
    ∧ t.trace.withdrawn = s.trace.withdrawn := by
  induction files generalizing s with
  | nil => exact ⟨rfl, rfl, fun u => by split <;> rfl, rfl⟩
  | cons file files ih =>
    obtain ⟨huris, hindex, hget, hw⟩ := ih (addInitial .calm s file)
    refine ⟨?_, ?_, fun u => ?_, ?_⟩
    · rw [List.foldl_cons, huris, uris_addInitial]
      rfl
    · rw [List.foldl_cons, hindex]
      unfold addInitial
      split <;> rfl
    · rw [List.foldl_cons, hget, isBuiltin_addInitial, get?_addInitial,
        lastText_cons]
      cases hb : s.store.isBuiltin u with
      | true => simp
      | false =>
        cases lastText files u with
        | some text => rfl
        | none =>
          by_cases hu : u = file.uri
          · simp [hu]
          · simp [hu]
    · rw [List.foldl_cons, hw]
      unfold addInitial
      split
      · show (s.trace.withdrawn || decide (none = some (Step.parse,
          file.uri))) = _
        simp
      · show (s.trace.withdrawn || decide (none = some (Step.parse,
          file.uri))) = _
        simp

end Scene

namespace Index

/-- A right index gives an ordinary document the scope that it has
among the loaded ones. -/
theorem linkScope_of_right {i : Index} {s : Store} (h : Right i s)
    {u : Uri} {d : Document} (hd : s.get? u = some d)
    (hord : d.isProject = false) :
    (i.linkScope s u).2 = s.scopeOf i.builtins u := by
  rw [linkScope_of_ordinary i hd hord, look_eq_of h]
  rfl

end Index

namespace Workspace

/-- What holds of builtins as they are loaded holds of all that a
workspace begins with. -/
theorem documents_create {P : Uri → Document → Prop} (host : Host)
    (builtins : List SourceFile) (hread : ∀ u text, P u (.ofBuiltin text)) :
    ∀ u d, (create host builtins).store.get? u = some d → P u d := by
  refine List.foldlRecOn builtins (Scene.addBuiltin host)
    (motive := fun s => ∀ u d, s.store.get? u = some d → P u d) ?_ ?_
  · intro u d hd
    cases hd
  · intro s hs file _ u d hd
    rw [Scene.get?_addBuiltin] at hd
    split at hd
    · cases hd
      exact hread u file.text
    · exact hs u d hd

/-- What holds of all that is read holds of all that is loaded. -/
theorem documents_loaded {P : Uri → Document → Prop} {w : Workspace}
    (host : Host) (files : List SourceFile)
    (hread : ∀ u text, P u (.read text))
    (h : ∀ u d, w.store.get? u = some d → P u d) :
    ∀ u d, (w.loaded host files).store.get? u = some d → P u d := by
  refine List.foldlRecOn files (Scene.addInitial host)
    (motive := fun s => ∀ u d, s.store.get? u = some d → P u d) h ?_
  intro s hs file _ u d hd
  rw [Scene.get?_addInitial] at hd
  split at hd
  · cases hd
    exact hread u file.text
  · exact hs u d hd

/-- A document as it is loaded at the start. -/
def initial (builtins files : List SourceFile) (u : Uri) :
    Option Document :=
  ((lastText builtins u).map Document.ofBuiltin).or
    ((lastText files u).map Document.read)

/-- A workspace that is about to start with changes kept back. -/
def waiting (builtins : List SourceFile) (queue : List Change) :
    Workspace :=
  { (create .calm builtins).begin false with gate := ⟨false, queue⟩ }

/-- A workspace that has been started undisturbed with changes kept
back, and what it reports. -/
def opened (builtins : List SourceFile) (queue : List Change)
    (files : List SourceFile) : Workspace × BuildReport :=
  (waiting builtins queue).start .calm files

/-- A workspace that has been started undisturbed, and what it reports. -/
def started (builtins files : List SourceFile) :
    Workspace × BuildReport :=
  ((create .calm builtins).begin false).start .calm files

theorem opened_nil (builtins files : List SourceFile) :
    opened builtins [] files = started builtins files := rfl

/-- A start with nothing kept back is a build. -/
theorem started_eq (builtins files : List SourceFile) :
    started builtins files
      = (⟨(((waiting builtins []).loaded .calm files).build .calm).1,
          ⟨true, []⟩⟩,
        (((waiting builtins []).loaded .calm files).build .calm).2) :=
  start_of_closed (w := waiting builtins []) .calm files rfl

/-- What is loaded before the first build. -/
theorem loaded_waiting (builtins : List SourceFile)
    (queue : List Change) (files : List SourceFile) :
    let s := (waiting builtins queue).loaded .calm files
    s.store.uris = Distinct.ofList ((builtins ++ files).map (·.uri))
    ∧ s.index = ⟨Distinct.ofList (builtins.map (·.uri)), []⟩
    ∧ (∀ u, s.store.get? u = initial builtins files u)
    ∧ s.trace.withdrawn = false := by
  obtain ⟨huris, hbuiltins, hget, hw⟩ :=
    Scene.foldl_addBuiltin builtins (Scene.empty [])
  obtain ⟨huris', hindex, hget', hw'⟩ :=
    Scene.foldl_addInitial files (waiting builtins queue).scene
  have hbase : ∀ u, (waiting builtins queue).scene.store.get? u
      = (lastText builtins u).map Document.ofBuiltin := by
    intro u
    refine (hget u).trans ?_
    rw [show (Scene.empty []).store.get? u = none from rfl,
      Option.or_none]
  refine ⟨?_, ?_, fun u => ?_, hw'⟩
  · refine huris'.trans ?_
    rw [show (waiting builtins queue).scene.store.uris = _ from huris,
      List.map_append, Distinct.ofList_append]
    rfl
  · show Index.clear _ = _
    rw [hindex, Index.clear]
    exact congrArg (Index.mk · []) hbuiltins
  · refine (hget' u).trans ?_
    unfold Store.isBuiltin initial
    rw [hbase]
    cases lastText builtins u with
    | some text => rfl
    | none =>
      show Option.or _ none = _
      rw [Option.or_none]
      rfl

/-- An initial document has just been read. -/
theorem ready_initial {builtins files : List SourceFile} {u : Uri}
    {d : Document} (h : initial builtins files u = some d) :
    d = d.fresh := by
  unfold initial at h
  rcases Option.or_eq_some_iff.1 h with h | ⟨-, h⟩
  · obtain ⟨text, -, rfl⟩ := Option.map_eq_some_iff.1 h
    rfl
  · obtain ⟨text, -, rfl⟩ := Option.map_eq_some_iff.1 h
    rfl

/-- The scope in which a document is linked when everything is built. -/
def scopeAt (s : Store) (builtins : List Uri) (u : Uri)
    (d : Document) : LinkScope :=
  if d.announces then ⟨[], some (s.projects.facts u)⟩
  else s.scopeOf builtins u

/-- The first build of a workspace. -/
theorem first_build (builtins : List SourceFile) (queue : List Change)
    (files : List SourceFile) :
    let loaded := (waiting builtins queue).loaded .calm files
    let t := (loaded.build .calm).1
    (loaded.build .calm).2.isComplete = true
    ∧ t.store.uris = Distinct.ofList ((builtins ++ files).map (·.uri))
    ∧ (∀ u, t.store.get? u = (initial builtins files u).map fun d =>
      d.built u (scopeAt t.store
        (Distinct.ofList (builtins.map (·.uri))) u d))
    ∧ t.index.builtins = Distinct.ofList (builtins.map (·.uri))
    ∧ t.trace.withdrawn = false := by
  dsimp only
  obtain ⟨huris, hindex, hget, hw⟩ :=
    loaded_waiting builtins queue files
  generalize (waiting builtins queue).loaded .calm files = s at *
  have hfresh : ∀ u d, s.store.get? u = some d → d = d.fresh :=
    fun u d hd => ready_initial ((hget u).symm.trans hd)
  have hs : s.store.Ready := fun u d hd => .fresh (hfresh u d hd)
  have hstage : ∀ u d, s.store.get? u = some d → d.stage = .parsed := by
    intro u d hd
    rw [hfresh u d hd, Document.stage_fresh]
  have hpending : ∀ u d, s.store.get? u = some d →
      u ∈ s.store.pending := fun u d hd =>
    Store.mem_pending.2 ⟨d, hd, by rw [hstage u d hd]; decide⟩
  obtain ⟨⟨scope, hfinish⟩, hcomplete⟩ := Scene.build_calm hs hw
    (by rw [hindex]; exact List.nodup_nil)
  have hbuiltins : (s.build .calm).1.index.builtins
      = Distinct.ofList (builtins.map (·.uri)) := by
    rw [Scene.build_builtins .calm hs.faithful, hindex]
  refine ⟨hcomplete, hfinish.completed.uris.trans huris, fun u => ?_,
    hbuiltins, hfinish.withdrawn⟩
  cases hd : initial builtins files u with
  | none =>
    rw [Option.map_none]
    exact Store.get?_none_of_uris hfinish.completed.uris ((hget u).trans hd)
  | some d =>
    have hd : s.store.get? u = some d := (hget u).trans hd
    have hu := hpending u d hd
    have hdone := hfinish.completed.done u hu d hd
    rw [hdone, Option.map_some]
    congr 2
    unfold scopeAt
    have hann := Store.announces_of_get? hd
    cases hcase : d.announces with
    | true =>
      refine hfinish.projects (fun v x hx => ?_) u hu (hann.trans hcase)
      rw [hstage v x hx]
      decide
    | false =>
      rw [hfinish.ordinary u hu (hann.trans hcase)]
      have hclear : s.retained = Index.clear
          ⟨Distinct.ofList (builtins.map (·.uri)), []⟩ := by
        unfold Scene.retained
        rw [hindex]
        split <;> rfl
      rw [hclear]
      exact Index.linkScope_of_right (Index.right_clear _ _) hdone
        ((d.isProject_built u _).trans hcase)

/-- What a workspace holds that has been started undisturbed. -/
theorem store_started (builtins files : List SourceFile) :
    let t := (started builtins files).1.store
    t.uris = Distinct.ofList ((builtins ++ files).map (·.uri))
    ∧ ∀ u, t.get? u = (initial builtins files u).map fun d =>
      d.built u (scopeAt t (Distinct.ofList (builtins.map (·.uri))) u d) := by
  obtain ⟨-, huris, hget, -, -⟩ := first_build builtins [] files
  rw [started_eq]
  exact ⟨huris, hget⟩

end Workspace

-- ========================================================== resolution

namespace Store

/-- What the rule says of finished documents. -/
structure Resolved (s : Store) (builtins : List Uri) : Prop where
  /-- Every document is complete. -/
  complete : ∀ u d, s.get? u = some d → d.stage = .validated
  /-- Apart from its targets, a document says what its text says. -/
  faithful : ∀ u d c, s.get? u = some d → d.content = some c →
    (Content.ofText d.text).1 = c.unlink
  /-- A reference leads to the document itself if it defines the name,
  and otherwise to the first that does among those to be searched. -/
  targets : ∀ u d b, s.get? u = some d → d.content = some (.ordinary b) →
    ∀ r ∈ b.references, r.target =
      if r.name ∈ b.names then some u
      else (s.searched builtins u).find? (s.defines · r.name)
  /-- The references that lead nowhere are reported, each once and in
  their order. -/
  dangling : ∀ u d b, s.get? u = some d →
    d.content = some (.ordinary b) →
    d.diagnostics.filter
        (·.code = some Diagnostic.Code.unresolvedReference)
      = (b.references.filter (·.target.isNone)).map
        Document.unresolvedReference
  /-- The dependencies that name no loaded project are reported, each
  once and in their order. -/
  unknown : ∀ u d x, s.get? u = some d →
    d.content = some (.descriptor x) →
    d.diagnostics.filter (·.code = some Diagnostic.Code.unknownProject)
      = (x.dependencies.filter fun e =>
        ∀ p ∈ s.projects, p.descriptor.name ≠ e.name).map
          Document.unknownProject

end Store

namespace Document

/-- The issues of a text have codes of their own. -/
theorem filter_code_ofText (text : String) {code : String}
    (h₁ : code ≠ Diagnostic.Code.unreadableText)
    (h₂ : code ≠ Diagnostic.Code.unreadableLiteral) :
    (Content.ofText text).2.filter (·.code = some code) = [] := by
  refine List.filter_eq_nil_iff.2 fun x hx => ?_
  obtain ⟨issue, span, rfl⟩ := Content.issues_ofText text x hx
  show ¬ decide (some issue.code = some code) = true
  rw [decide_eq_true_eq]
  intro heq
  obtain rfl := Option.some.inj heq
  cases issue with
  | folder | duration => exact h₂ rfl
  | expected | notAnEntry | notAnItem | unclosed | afterDescriptor
  | tooLong => exact h₁ rfl

/-- What a complete document has to say of its references. -/
theorem filter_unresolved_built {d : Document} {u : Uri}
    {scope : LinkScope} {b : Body}
    (h : d.reading.link u scope = .ordinary b) :
    (d.built u scope).diagnostics.filter
        (·.code = some Diagnostic.Code.unresolvedReference)
      = (b.references.filter (·.target.isNone)).map
        unresolvedReference := by
  show ((Content.ofText d.text).2 ++ (d.reading.link u scope).dangling
    ++ complaints (d.reading.link u scope) scope).filter _ = _
  rw [h, List.filter_append, List.filter_append,
    filter_code_ofText d.text (by decide) (by decide), List.nil_append]
  have hdangling : (Content.ordinary b).dangling.filter
      (·.code = some Diagnostic.Code.unresolvedReference)
      = (Content.ordinary b).dangling := by
    refine List.filter_eq_self.2 fun x hx => ?_
    obtain ⟨r, -, rfl⟩ := List.mem_map.1 hx
    rfl
  have hcomplaints : (complaints (.ordinary b) scope).filter
      (·.code = some Diagnostic.Code.unresolvedReference) = [] := by
    refine List.filter_eq_nil_iff.2 fun x hx => ?_
    obtain ⟨y, -, rfl⟩ := List.mem_map.1 hx
    show ¬ decide (some Diagnostic.Code.repeatedDefinition
      = some Diagnostic.Code.unresolvedReference) = true
    decide
  rw [hdangling, hcomplaints, List.append_nil]
  rfl

/-- What a complete project has to say of its dependencies. -/
theorem filter_unknown_built {d : Document} {u : Uri} {x : Descriptor}
    (h : d.reading = .descriptor x) (facts : DependencyFacts) :
    (d.built u ⟨[], some facts⟩).diagnostics.filter
        (·.code = some Diagnostic.Code.unknownProject)
      = facts.unresolved.map unknownProject := by
  show ((Content.ofText d.text).2 ++ (d.reading.link u _).dangling
    ++ complaints (d.reading.link u _) _).filter _ = _
  rw [h, List.filter_append, List.filter_append,
    filter_code_ofText d.text (by decide) (by decide), List.nil_append]
  show List.filter _ [] ++ List.filter _ (facts.unresolved.map
    unknownProject ++ (facts.cycle.map (dependencyCycle x)).toList) = _
  rw [List.filter_nil, List.nil_append, List.filter_append]
  have hunknown : (facts.unresolved.map unknownProject).filter
      (·.code = some Diagnostic.Code.unknownProject)
      = facts.unresolved.map unknownProject := by
    refine List.filter_eq_self.2 fun y hy => ?_
    obtain ⟨e, -, rfl⟩ := List.mem_map.1 hy
    rfl
  have hcycle : (facts.cycle.map (dependencyCycle x)).toList.filter
      (·.code = some Diagnostic.Code.unknownProject) = [] := by
    refine List.filter_eq_nil_iff.2 fun y hy => ?_
    obtain ⟨way, -, rfl⟩ :=
      Option.map_eq_some_iff.1 (Option.mem_toList.1 hy)
    show ¬ decide (some Diagnostic.Code.dependencyCycle
      = some Diagnostic.Code.unknownProject) = true
    decide
  rw [hunknown, hcycle, List.append_nil]

end Document

namespace Store

/-- A dependency names a loaded project, or no loaded project has its
name. -/
theorem resolves_iff (ps : Projects) (e : Dependency) :
    (!ps.resolves e) = decide (∀ p ∈ ps, p.descriptor.name ≠ e.name) := by
  rw [Bool.eq_iff_iff]
  simp [Projects.resolves, Projects.named?]

/-- Every document has been built, and in its own scope. -/
def Built (s : Store) (builtins : List Uri) : Prop :=
  ∀ u d, s.get? u = some d →
    d = d.built u (Workspace.scopeAt s builtins u d)

namespace Built

variable {s : Store} {builtins : List Uri} {u : Uri} {d : Document}

theorem stage (h : s.Built builtins) (hd : s.get? u = some d) :
    d.stage = .validated := by
  rw [h u d hd, Document.stage_built]

theorem content (h : s.Built builtins) (hd : s.get? u = some d) :
    d.content
      = some (d.reading.link u (Workspace.scopeAt s builtins u d)) :=
  congrArg Document.content (h u d hd)

/-- A document offers the names that it holds. -/
theorem offered (h : s.Built builtins) (hd : s.get? u = some d) :
    ∃ c, d.content = some c
      ∧ d.offered = some (Distinct.ofList c.names) := by
  refine ⟨_, h.content hd, ?_⟩
  have hnames : ∀ (c : Content) (scope : LinkScope),
      (c.link u scope).names = c.names := by
    intro c scope
    cases c <;> rfl
  rw [hnames]
  exact congrArg Document.offered (h u d hd)

theorem linked (h : s.Built builtins) :
    ∀ p ∈ s.projects, Stage.linked ≤ p.stage := by
  intro p hp
  obtain ⟨d, hd, -, hps⟩ := mem_projects.1 hp
  rw [← hps, h.stage hd]
  decide

/-- An ordinary document is linked to what it is to search. -/
theorem targets (hb : builtins.Nodup) (h : s.Built builtins)
    (hd : s.get? u = some d) {b : Body}
    (hc : d.content = some (.ordinary b)) {r : Reference}
    (hr : r ∈ b.references) :
    r.target = if r.name ∈ b.names then some u
      else (s.searched builtins u).find? (s.defines · r.name) := by
  have hlink := Option.some.inj ((h.content hd).symm.trans hc)
  cases hbody : d.reading with
  | descriptor x =>
    rw [hbody] at hlink
    cases hlink
  | ordinary b₀ =>
    have hann : d.announces = false := by
      show d.reading.descriptor?.isSome = false
      rw [hbody]
      rfl
    have hscope : Workspace.scopeAt s builtins u d
        = ⟨s.offersOf (s.searched builtins u), none⟩ := by
      unfold Workspace.scopeAt scopeOf
      rw [hann, candidates_eq_searched h.linked hb]
      rfl
    rw [hbody, hscope] at hlink
    obtain rfl := Content.ordinary.inj hlink
    obtain ⟨r₀, -, rfl⟩ := List.mem_map.1 hr
    show Document.targetOf u (Distinct.ofList b₀.names) _ r₀.name = _
    unfold Document.targetOf
    rw [resolve_offersOf fun v x hx => h.offered hx]
    simp only [Distinct.mem_ofList]
    rfl

/-- A descriptor is checked against all projects. -/
theorem unknown (h : s.Built builtins) (hd : s.get? u = some d)
    {x : Descriptor} (hc : d.content = some (.descriptor x)) :
    d.diagnostics.filter (·.code = some Diagnostic.Code.unknownProject)
      = (x.dependencies.filter fun e =>
        ∀ p ∈ s.projects, p.descriptor.name ≠ e.name).map
          Document.unknownProject := by
  have hlink := Option.some.inj ((h.content hd).symm.trans hc)
  have hreading : d.reading = .descriptor x := by
    cases hbody : d.reading with
    | descriptor y => rw [hbody] at hlink; exact hlink
    | ordinary b => rw [hbody] at hlink; cases hlink
  have hann : d.announces = true := by
    show d.reading.descriptor?.isSome = true
    rw [hreading]
    rfl
  have hproject : s.projects.get? u = some ⟨u, x, d.stage⟩ := by
    refine Projects.get?_of_mem (p := ⟨u, x, d.stage⟩)
      s.uris_projects_nodup (mem_projects.2 ⟨d, hd, ?_, rfl⟩)
    unfold Document.descriptor?
    rw [hc]
    rfl
  have hscope : Workspace.scopeAt s builtins u d
      = ⟨[], some (s.projects.facts u)⟩ := by
    unfold Workspace.scopeAt
    rw [hann]
    rfl
  rw [congrArg Document.diagnostics (h u d hd), hscope,
    Document.filter_unknown_built hreading]
  show (s.projects.unresolved u).map _ = _
  unfold Projects.unresolved
  rw [hproject]
  simp only [resolves_iff]

/-- Documents that have been built in their own scopes are as the rule
says. -/
theorem resolved (hb : builtins.Nodup) (h : s.Built builtins) :
    s.Resolved builtins := by
  refine ⟨fun u d => h.stage, ?_, fun u d b hd hc r hr =>
    h.targets hb hd hc hr, ?_, fun u d x hd hc => h.unknown hd hc⟩
  · intro u d c hd hc
    obtain rfl := Option.some.inj ((h.content hd).symm.trans hc)
    rw [Content.unlink_link]
    exact (Content.unlink_ofText d.text).symm
  · intro u d b hd hc
    rw [congrArg Document.diagnostics (h u d hd)]
    exact Document.filter_unresolved_built
      (Option.some.inj ((h.content hd).symm.trans hc))

end Built

end Store

namespace Workspace

/-- A workspace that starts undisturbed reports that it is complete,
holds the documents that it was given, and has every reference lead
where the rule says. -/
theorem started_resolved (builtins files : List SourceFile) :
    let w := (started builtins files).1
    (started builtins files).2.isComplete = true
    ∧ w.builtins = Distinct.ofList (builtins.map (·.uri))
    ∧ w.store.uris = Distinct.ofList ((builtins ++ files).map (·.uri))
    ∧ (∀ u, (w.store.get? u).map (fun d => (d.text, d.builtin))
      = ((lastText builtins u).map (·, true)).or
        ((lastText files u).map (·, false)))
    ∧ w.store.Resolved (Distinct.ofList (builtins.map (·.uri))) := by
  obtain ⟨hcomplete, huris, hget, hbuiltins, -⟩ :=
    first_build builtins [] files
  dsimp only at hcomplete huris hget hbuiltins ⊢
  rw [started_eq]
  refine ⟨hcomplete, hbuiltins, huris, fun u => ?_, ?_⟩
  · refine (congrArg (Option.map fun d => (d.text, d.builtin))
      (hget u)).trans ?_
    unfold initial
    cases lastText builtins u with
    | some text => rfl
    | none => cases lastText files u <;> rfl
  · refine Store.Built.resolved (Distinct.nodup_ofList _) ?_
    intro u d hd
    obtain ⟨x, -, rfl⟩ :=
      Option.map_eq_some_iff.1 ((hget u).symm.trans hd)
    generalize hscope : scopeAt _ _ u x = scope
    have hsame : scopeAt _ _ u (x.built u scope) = scope := hscope
    rw [Document.built_congr (x.alike_built u scope)]
    exact congrArg (x.built u) hsame.symm

end Workspace

end Purview

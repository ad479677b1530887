/-
What the moves of a request do, each said once. A move works on the
documents in place, so what it comes to is a change of the store
(`Store.alter`) beside a change of the index: sending documents back
(`store_sendBackAll`), reading those whose text has changed
(`store_reread`), and taking a document through a phase
(`carry_advance`). Of a phase only what every host leaves standing is
said: it moves documents forward, and only the one it was given. What
follows about a whole pass then needs nothing else about its steps.

Forward means that the text, and what it was last read to say, stay as
they are (`Document.Forward`). A text that is read is the one thing in
a pass that is not a move forward; it brings a document into line with
its text, which a document otherwise leaves only by way of `changed`
(`Document.Faithful`).
-/
import Purview.Build.Pass
import Purview.Proofs.Remembered

namespace Purview

/-- Nothing is before `changed`. -/
theorem Stage.not_changed_lt {s : Stage} :
    ¬ Stage.changed < s ↔ s = .changed := by
  cases s <;> decide

namespace Document

-- ========================================================= one document

/-- Whether the text describes a project, read or not. -/
def announces (d : Document) : Bool :=
  (Content.ofText d.text).1.descriptor?.isSome

/-- A document after its text has been read if it had to be. -/
def reread (d : Document) : Document :=
  if d.stage = .changed then
    (d.applyRead (Content.ofText d.text)).advance .parsed else d

/-- A document that has been read at some time, and whose content is
that of its text unless it is `changed`. -/
structure Faithful (d : Document) : Prop where
  known : d.content.isSome
  current : d.stage ≠ .changed →
    d.descriptor? = (Content.ofText d.text).1.descriptor?

/-- What work forward leaves alone, and that it goes forward. -/
structure Forward (d d' : Document) : Prop where
  text : d'.text = d.text
  version : d'.version = d.version
  builtin : d'.builtin = d.builtin
  descriptor : d'.descriptor? = d.descriptor?
  known : d'.content.isSome = d.content.isSome
  stage : d.stage ≤ d'.stage

theorem Forward.refl (d : Document) : d.Forward d :=
  ⟨rfl, rfl, rfl, rfl, rfl, Nat.le_refl _⟩

/-- Moves forward can be made one after another. -/
theorem Forward.trans {a b c : Document} (h : a.Forward b)
    (h' : b.Forward c) : a.Forward c :=
  ⟨h'.text.trans h.text, h'.version.trans h.version,
    h'.builtin.trans h.builtin, h'.descriptor.trans h.descriptor,
    h'.known.trans h.known, Nat.le_trans h.stage h'.stage⟩

/-- Whether a document is a project does not change on the way. -/
theorem Forward.isProject {d d' : Document} (h : d.Forward d') :
    d'.isProject = d.isProject := by
  unfold Document.isProject
  rw [h.descriptor]

/-- What any work leaves of a document: its text, and the descriptor it
had or the one that the text has. -/
structure Follows (d d' : Document) : Prop where
  text : d'.text = d.text
  descriptor : d'.descriptor? = d.descriptor?
    ∨ d'.descriptor? = (Content.ofText d.text).1.descriptor?

theorem Follows.refl (d : Document) : d.Follows d := ⟨rfl, .inl rfl⟩

theorem Follows.trans {a b c : Document} (h : a.Follows b)
    (h' : b.Follows c) : a.Follows c := by
  refine ⟨h'.text.trans h.text, ?_⟩
  rcases h'.descriptor with hc | hc
  · rw [hc]
    exact h.descriptor
  · rw [hc, h.text]
    exact .inr rfl

theorem Forward.follows {d d' : Document} (h : d.Forward d') :
    d.Follows d' := ⟨h.text, .inl h.descriptor⟩

/-- Moving on is a move forward. -/
theorem forward_advance (d : Document) (stage : Stage) :
    d.Forward (d.advance stage) := by
  refine ⟨?_, ?_, ?_, ?_, ?_, d.le_stage_advance stage⟩ <;>
  · unfold advance
    split <;> rfl

/-- Leaving a diagnostic is a move forward. -/
theorem forward_report (d : Document) (x : Diagnostic) :
    d.Forward (d.report x) :=
  ⟨rfl, rfl, rfl, rfl, rfl, Nat.le_refl _⟩

/-- Dropping what failed steps left is a move forward. -/
theorem forward_clearFailures (d : Document) : d.Forward d.clearFailures :=
  ⟨rfl, rfl, rfl, rfl, rfl, Nat.le_refl _⟩

/-- The work of a phase is a move forward. -/
theorem forward_work {phase : Phase} {u : Uri} {scope : LinkScope}
    {d d' : Document} (h : phase.work u scope d = .ok d') :
    d.Forward d' := by
  obtain ⟨-, rfl⟩ := Phase.work_eq_ok h
  refine ⟨rfl, rfl, rfl, ?_, Option.isSome_map, Nat.le_refl _⟩
  show (d.content.map _).bind Content.descriptor? = _
  rw [Option.bind_map]
  exact congrArg d.content.bind
    (funext fun c => phase.descriptor?_turn u d.own scope c)

-- ========================================================== faithfulness

/-- A document that has just been read. -/
theorem faithful_read (text : String) : (read text).Faithful :=
  ⟨rfl, fun _ => rfl⟩

@[simp] theorem stage_outdated (d : Document) :
    d.outdated.stage = .changed := by
  unfold outdated demote
  split
  · rfl
  · next h => exact Stage.not_changed_lt.1 h

/-- A document that is to be read anew is in line with any text. -/
theorem faithful_outdated {d : Document} (h : d.content.isSome) :
    d.outdated.Faithful := by
  have hcontent : d.outdated.content = d.content.map Content.unlink := by
    unfold outdated demote
    split <;> rfl
  refine ⟨?_, fun hne => absurd d.stage_outdated hne⟩
  rw [hcontent, Option.isSome_map]
  exact h

/-- Going back does not bring a document out of line. -/
theorem faithful_sentBack {d : Document} (h : d.Faithful) :
    d.sentBack.Faithful := by
  unfold sentBack
  split
  · next hlt =>
    have hlt' : Stage.surveyed < d.unlink.stage := hlt
    have hne : d.stage ≠ .changed := by
      intro heq
      rw [heq] at hlt
      exact absurd hlt (by decide)
    unfold demote
    rw [if_pos hlt']
    refine ⟨?_, fun _ => ?_⟩
    · show (d.content.map Content.unlink).isSome
      rw [Option.isSome_map]
      exact h.known
    · exact d.descriptor?_unlink.trans (h.current hne)
  · exact h

/-- A new text is for the next reading. -/
theorem faithful_setText {d : Document} (h : d.content.isSome)
    (hstage : d.stage = .changed) (text : String) :
    (d.setText text).Faithful :=
  ⟨h, fun hne => absurd hstage hne⟩

/-- Work forward keeps a document in line with its text, except that it
may not leave `changed`. -/
theorem Faithful.forward {d d' : Document} (h : d.Faithful)
    (hd : d.stage ≠ .changed) (hf : d.Forward d') : d'.Faithful := by
  refine ⟨hf.known ▸ h.known, fun _ => ?_⟩
  rw [hf.descriptor, hf.text]
  exact h.current hd

-- =============================================================== reading

@[simp] theorem text_reread (d : Document) : d.reread.text = d.text := by
  unfold reread applyRead advance
  split
  · split <;> rfl
  · rfl

@[simp] theorem announces_reread (d : Document) :
    d.reread.announces = d.announces := by
  unfold announces
  rw [text_reread]

/-- Who has been read is not read again. -/
theorem reread_of_ne {d : Document} (h : d.stage ≠ .changed) :
    d.reread = d := if_neg h

/-- Reading takes a document to the first stage, unless it is
further. -/
theorem stage_reread (d : Document) :
    d.reread.stage = if d.stage = .changed then .parsed else d.stage := by
  unfold reread
  split
  · next h =>
    unfold applyRead advance
    rw [if_pos (by rw [h]; decide)]
  · rfl

theorem stage_reread_ne (d : Document) : d.reread.stage ≠ .changed := by
  rw [stage_reread]
  split
  · decide
  · next h => exact h

/-- Reading validates nothing. -/
theorem stage_reread_lt {d : Document} (h : d.stage < .validated) :
    d.reread.stage < .validated := by
  rw [stage_reread]
  split
  · decide
  · exact h

@[simp] theorem reread_reread (d : Document) :
    d.reread.reread = d.reread :=
  reread_of_ne d.stage_reread_ne

/-- A document that has been read is what its text says. -/
theorem descriptor?_reread {d : Document} (h : d.Faithful) :
    d.reread.descriptor? = (Content.ofText d.text).1.descriptor? := by
  by_cases hs : d.stage = .changed
  · unfold reread applyRead advance
    rw [if_pos hs]
    split <;> rfl
  · rw [reread_of_ne hs]
    exact h.current hs

/-- A document that has been read is a project if its text says so. -/
theorem isProject_reread {d : Document} (h : d.Faithful) :
    d.reread.isProject = d.announces := by
  unfold isProject announces
  rw [descriptor?_reread h]

/-- Reading brings a document in line with its text. -/
theorem faithful_reread {d : Document} (h : d.Faithful) :
    d.reread.Faithful := by
  refine ⟨?_, fun _ => ?_⟩
  · unfold reread
    split
    · unfold applyRead advance
      split <;> rfl
    · exact h.known
  · rw [descriptor?_reread h, text_reread]

theorem follows_reread (d : Document) : d.Follows d.reread := by
  refine ⟨d.text_reread, ?_⟩
  unfold reread
  split
  · exact .inr ((forward_advance _ .parsed).descriptor)
  · exact .inl rfl

end Document

namespace Scene

variable (host : Host)

-- ============================================ what a move leaves alone

@[simp] theorem store_note (s : Scene) (step : Step) (u : Uri) :
    (s.note host step u).store = s.store := rfl

@[simp] theorem store_modify (s : Scene) (u : Uri)
    (f : Document → Document) :
    (s.modify u f).store = s.store.modify u f := rfl

@[simp] theorem store_reindex (s : Scene) (f : Index → Index) :
    (s.reindex f).store = s.store := rfl

@[simp] theorem index_reindex (s : Scene) (f : Index → Index) :
    (s.reindex f).index = f s.index := rfl

@[simp] theorem trace_reindex (s : Scene) (f : Index → Index) :
    (s.reindex f).trace = s.trace := rfl

@[simp] theorem store_unlink (s : Scene) (u : Uri) :
    (s.unlink host u).store = s.store.modify u Document.unlink := rfl

-- ========================================================== sending back

/-- Sending a document back changes no other. -/
theorem store_sendBack (s : Scene) (u : Uri) :
    (s.sendBack host u).1.store
      = s.store.alter fun v d => if v = u then d.sentBack else d := by
  unfold sendBack
  split
  · next h =>
    rw [store_modify, store_unlink, Store.modify_eq_alter,
      Store.modify_eq_alter, Store.alter_alter]
    refine Store.alter_congr fun v d hd => ?_
    by_cases hv : v = u
    · subst hv
      have hlt : Stage.surveyed < d.stage := by
        simpa [Store.stageOf, hd] using h
      simp [Document.sentBack, hlt]
    · simp [hv]
  · next h =>
    refine (Store.alter_id fun v d hd => ?_).symm
    by_cases hv : v = u
    · subst hv
      have hlt : ¬ Stage.surveyed < d.stage := by
        simpa [Store.stageOf, hd] using h
      simp [Document.sentBack, hlt]
    · simp [hv]

theorem index_sendBack (s : Scene) (u : Uri) :
    (s.sendBack host u).1.index = s.index := by
  unfold sendBack
  split <;> rfl

/-- Sending documents back, whether they have to be sent or not. -/
theorem store_sendBackAll (us : List Uri) (s : Scene) :
    (sendBackAll host us s).1.store
      = s.store.alter fun v d => if v ∈ us then d.sentBack else d := by
  induction us generalizing s with
  | nil => exact (Store.alter_id fun v d _ => by simp).symm
  | cons u us ih =>
    show (sendBackAll host us (s.sendBack host u).1).1.store = _
    rw [ih, store_sendBack, Store.alter_alter]
    refine Store.alter_congr fun v d _ => ?_
    by_cases hv : v = u
    · by_cases hus : v ∈ us <;> simp [hv]
    · simp [hv]

theorem index_sendBackAll (us : List Uri) (s : Scene) :
    (sendBackAll host us s).1.index = s.index := by
  induction us generalizing s with
  | nil => rfl
  | cons u us ih =>
    show (sendBackAll host us (s.sendBack host u).1).1.index = _
    rw [ih, index_sendBack]

-- =============================================================== reading

/-- Reading the documents whose text has changed. -/
theorem store_reread (us : List Uri) (s : Scene) :
    (reread host us s).store
      = s.store.alter fun v d => if v ∈ us then d.reread else d := by
  induction us generalizing s with
  | nil => exact (Store.alter_id fun v d _ => by simp).symm
  | cons u us ih =>
    -- a document that need not be read is what it would be if it were
    have hskip : (∀ d, s.store.get? u = some d → d.stage ≠ .changed) →
        (s.store.alter fun v d => if v ∈ us then d.reread else d)
          = s.store.alter fun v d =>
              if v ∈ u :: us then d.reread else d := by
      intro h
      refine Store.alter_congr fun v d hd => ?_
      by_cases hv : v = u
      · subst hv
        simp [Document.reread_of_ne (h d hd)]
      · simp [hv]
    unfold reread
    split
    · next d hd =>
      split
      · next hstage =>
        rw [ih, store_modify, store_note, Store.modify_eq_alter,
          Store.alter_alter]
        refine Store.alter_congr fun v x hx => ?_
        by_cases hv : v = u
        · subst hv
          obtain rfl : x = d := by simpa [hd] using hx.symm
          have hread : x.reread
              = (x.applyRead (Content.ofText x.text)).advance .parsed :=
            if_pos hstage
          simp [← hread]
        · simp [hv]
      · next hstage =>
        rw [ih]
        refine hskip fun x hx => ?_
        obtain rfl : x = d := by simpa [hd] using hx.symm
        exact hstage
    · next hd =>
      rw [ih]
      exact hskip fun x hx => by simp [hd] at hx

theorem index_reread (us : List Uri) (s : Scene) :
    (reread host us s).index = s.index := by
  induction us generalizing s with
  | nil => rfl
  | cons u us ih =>
    unfold reread
    split
    · split
      · rw [ih]; rfl
      · exact ih s
    · exact ih s

-- ============================================================ readiness

/-- A project waits for nobody. -/
theorem ownerReady_of_isProject {s : Scene} {u : Uri}
    (h : s.store.isProject u = true) : s.ownerReady u = true := by
  unfold ownerReady
  rw [h, Bool.true_or]

/-- Who waits hangs on the projects alone. -/
theorem ownerReady_of_layout {s t : Scene}
    (h : s.store.SameLayout t.store) (u : Uri) :
    s.ownerReady u = t.ownerReady u := by
  unfold ownerReady
  rw [h.isProject, h.2]

-- ========================================================= going forward

/-- What happens to a scene while some documents are worked on, under
any host: they go forward, the others stay, and unless one of them is a
project the index only comes to remember horizons that are right. -/
structure Advance (us : List Uri) (s s' : Scene) : Prop where
  uris : s'.store.uris = s.store.uris
  forward : ∀ v d, s.store.get? v = some d →
    ∃ d', s'.store.get? v = some d' ∧ d.Forward d' ∧ (v ∉ us → d' = d)
  builtins : s'.index.builtins = s.index.builtins
  index : (∀ v ∈ us, s.store.isProject v = false) →
    s.index.Grows s.store s'.index

namespace Advance

variable {us : List Uri} {s s' s'' : Scene}

theorem refl (us : List Uri) (s : Scene) : Advance us s s :=
  ⟨rfl, fun _ d hd => ⟨d, hd, .refl d, fun _ => rfl⟩, rfl,
    fun _ => .refl _ _⟩

/-- Who is worked on may be more. -/
theorem mono {vs : List Uri} (h : Advance us s s') (hsub : us ⊆ vs) :
    Advance vs s s' where
  uris := h.uris
  forward v d hd := by
    obtain ⟨d', hd', hforward, hsame⟩ := h.forward v d hd
    exact ⟨d', hd', hforward, fun hv => hsame (mt (@hsub v) hv)⟩
  builtins := h.builtins
  index hvs := h.index fun v hv => hvs v (hsub hv)

/-- No document comes from nowhere. -/
theorem backward (h : Advance us s s') {v : Uri} {d' : Document}
    (hd' : s'.store.get? v = some d') :
    ∃ d, s.store.get? v = some d ∧ d.Forward d' ∧ (v ∉ us → d' = d) := by
  cases hd : s.store.get? v with
  | none =>
    rw [Store.get?_none_of_uris h.uris hd] at hd'
    cases hd'
  | some d =>
    obtain ⟨x, hx, hforward, hsame⟩ := h.forward v d hd
    obtain rfl : d' = x := Option.some.inj (hd'.symm.trans hx)
    exact ⟨d, rfl, hforward, hsame⟩

/-- Whoever is not among the documents is left alone. -/
theorem get?_of_not_mem (h : Advance us s s') {v : Uri} (hv : v ∉ us) :
    s'.store.get? v = s.store.get? v := by
  cases hd : s.store.get? v with
  | none => exact Store.get?_none_of_uris h.uris hd
  | some d =>
    obtain ⟨d', hd', -, hsame⟩ := h.forward v d hd
    rw [hd', hsame hv]

/-- Work forward makes no project and unmakes none. -/
theorem isProject (h : Advance us s s') (v : Uri) :
    s'.store.isProject v = s.store.isProject v := by
  unfold Store.isProject
  cases hd : s.store.get? v with
  | none =>
    rw [Store.get?_none_of_uris h.uris hd]
  | some d =>
    obtain ⟨d', hd', hf, -⟩ := h.forward v d hd
    rw [hd']
    exact hf.isProject

/-- Work on ordinary documents keeps the layout. -/
theorem layout (h : Advance us s s')
    (hus : ∀ v ∈ us, s.store.isProject v = false) :
    Store.SameLayout s'.store s.store := by
  refine Store.sameLayout_of_get? h.uris fun v => ?_
  cases hd : s.store.get? v with
  | none =>
    rw [Store.get?_none_of_uris h.uris hd]
  | some d =>
    obtain ⟨d', hd', hf, hout⟩ := h.forward v d hd
    rw [hd', Option.bind_some, Option.bind_some]
    by_cases hv : v ∈ us
    · have hord : d.descriptor? = none := by
        simpa [Store.isProject, Document.isProject, hd] using hus v hv
      rw [Project.ofEntry?_eq_none.2 (hf.descriptor.trans hord),
        Project.ofEntry?_eq_none.2 hord]
    · rw [hout hv]

/-- Advances of the same documents can be made one after another. -/
theorem trans (h : Advance us s s') (h' : Advance us s' s'') :
    Advance us s s'' := by
  refine ⟨h'.uris.trans h.uris, fun v d hd => ?_,
    h'.builtins.trans h.builtins, fun hus => ?_⟩
  · obtain ⟨d', hd', hf, hout⟩ := h.forward v d hd
    obtain ⟨d'', hd'', hf', hout'⟩ := h'.forward v d' hd'
    exact ⟨d'', hd'', hf.trans hf',
      fun hv => (hout' hv).trans (hout hv)⟩
  · have hus' : ∀ v ∈ us, s'.store.isProject v = false :=
      fun v hv => (h.isProject v).trans (hus v hv)
    exact (h.index hus).trans ((h'.index hus').layout (h.layout hus))

/-- Documents that have been read stay in line with their texts. -/
theorem faithful (h : Advance us s s')
    (hs : ∀ v d, s.store.get? v = some d → d.Faithful)
    (hus : ∀ v d, s.store.get? v = some d → v ∈ us →
      d.stage ≠ .changed) :
    ∀ v d, s'.store.get? v = some d → d.Faithful := by
  intro v d' hd'
  obtain ⟨d, hd, hf, hout⟩ := h.backward hd'
  by_cases hv : v ∈ us
  · exact (hs v d hd).forward (hus v d hd hv) hf
  · rw [hout hv]
    exact hs v d hd

end Advance

/-- Changing a document forward. -/
theorem advance_modify {us : List Uri} (s : Scene) {u : Uri}
    (hu : u ∈ us) {f : Document → Document}
    (hf : ∀ d, s.store.get? u = some d → d.Forward (f d)) :
    Advance us s (s.modify u f) := by
  refine ⟨Store.uris_modify _ _ _, fun v d hd => ?_, rfl,
    fun _ => .refl _ _⟩
  rw [store_modify, Store.get?_modify]
  split
  · next hv =>
    subst hv
    exact ⟨f d, by rw [hd]; rfl, hf d hd, fun h => absurd hu h⟩
  · exact ⟨d, hd, .refl d, fun _ => rfl⟩

/-- Changing only what is remembered. -/
theorem advance_index {us : List Uri} {s s' : Scene}
    (hstore : s'.store = s.store)
    (hindex : s.index.Grows s.store s'.index) : Advance us s s' :=
  ⟨congrArg _ hstore,
    fun _ d hd => ⟨d, hstore ▸ hd, .refl d, fun _ => rfl⟩,
    hindex.builtins, fun _ => hindex⟩

/-- The scope of a document is found by asking the index once at most. -/
theorem grows_linkScope (i : Index) (s : Store) (u : Uri) :
    i.Grows s (i.linkScope s u).1 := by
  unfold Index.linkScope
  split
  · exact .refl _ _
  · split
    · exact .refl _ _
    · exact i.grows_look s u

theorem advance_scopeFor (us : List Uri) (s : Scene) (phase : Phase)
    (u : Uri) : Advance us s (s.scopeFor phase u).1 := by
  unfold scopeFor
  split
  · exact advance_index rfl (grows_linkScope _ _ _)
  · exact .refl us s

/-- Work is only ever done by work that succeeds. -/
theorem result?_attempt {step : Step} {u : Uri}
    {work : Except StepError Document} {d : Document}
    (h : (host.attempt step u work).result? = some d) :
    work = .ok d := by
  unfold Host.attempt at h
  split at h <;> simp_all [Attempt.result?]

/-- Ending a phase leaves the document it was called on, or what the
work made of it. -/
theorem advance_settle {us : List Uri} (s : Scene) (phase : Phase)
    {u : Uri} (hu : u ∈ us) {d : Document}
    (hd : s.store.get? u = some d) {attempt : Attempt Document}
    (h : ∀ d', attempt.result? = some d' → d.Forward d') :
    Advance us s (s.settle phase u attempt).1 := by
  have hsame : ∀ x, s.store.get? u = some x → x = d := by
    intro x hx
    simpa [hd] using hx.symm
  cases attempt with
  | succeeded d' =>
    refine advance_modify s hu fun x hx => ?_
    rw [hsame x hx]
    exact (h d' rfl).trans (d'.forward_advance phase.goal)
  | failedBefore error => exact .refl us s
  | failedAfter d' error =>
    unfold settle
    dsimp only
    split
    · exact .refl us s
    · refine advance_modify s hu fun x hx => ?_
      rw [hsame x hx]
      exact h d' rfl

/-- Taking a document through a phase, under any host. -/
theorem carry_advance {us : List Uri} (s : Scene) (phase : Phase)
    {u : Uri} (hu : u ∈ us) :
    Advance us s (s.carry host phase u).1 := by
  unfold carry
  split
  · exact .refl us s
  · next d hd =>
    split
    · exact .refl us s
    · split
      · exact .refl us s
      · dsimp only
        have hscope := s.advance_scopeFor us phase u
        have hstore : (s.scopeFor phase u).1.store = s.store := by
          unfold scopeFor
          split <;> rfl
        refine hscope.trans (Advance.trans ?_
          (advance_settle _ phase hu (d := d) ?_ ?_))
        · exact advance_index rfl (.refl _ _)
        · rw [store_note, hstore]
          exact hd
        · intro d' hd'
          exact Document.forward_work (result?_attempt host hd')

end Scene

namespace Pass

variable (host : Host)

open Scene (Advance)

@[simp] theorem scene_poll (p : Pass) : p.poll.scene = p.scene := rfl

/-- A phase on documents, one after another, under any host. -/
theorem runPhase_advance (phase : Phase) (us : List Uri) {vs : List Uri}
    (hvs : us ⊆ vs) (p : Pass) :
    Advance vs p.scene (runPhase host phase us p).1.scene := by
  induction us generalizing p with
  | nil => exact .refl vs p.scene
  | cons u us ih =>
    have hu : u ∈ vs := hvs List.mem_cons_self
    have ih := ih fun v hv => hvs (List.mem_cons_of_mem u hv)
    have hcarry := Scene.carry_advance host p.scene phase hu
    unfold runPhase
    dsimp only
    split
    · exact .refl vs p.scene
    · split
      · exact hcarry.trans (ih ⟨_, _⟩)
      · exact hcarry.trans (ih ⟨_, _⟩)
      · refine hcarry.trans (Advance.trans ?_ (ih _))
        exact Scene.advance_modify _ hu
          fun d _ => d.forward_report _

/-- A phase goes on with documents it was given. -/
theorem runPhase_active {phase : Phase} {us active : List Uri} {p : Pass}
    (h : (runPhase host phase us p).2 = some active) : active ⊆ us := by
  induction us generalizing p active with
  | nil => cases h; simp
  | cons u us ih =>
    unfold runPhase at h
    dsimp only at h
    split at h
    · cases h
    · split at h
      · obtain ⟨rest, hrest, rfl⟩ := Option.map_eq_some_iff.1 h
        exact List.cons_subset_cons u (ih hrest)
      · exact fun v hv => List.mem_cons_of_mem u (ih h hv)
      · exact fun v hv => List.mem_cons_of_mem u (ih h hv)

/-- A phase, and the others on the documents that it goes on with. -/
theorem runPhases_elim (phase : Phase) (phases : List Phase)
    (us : List Uri) (p : Pass) :
    runPhases host (phase :: phases) us p =
      if p.poll.report.cancelled then (p.poll, false)
      else
        let q := runPhase host phase us p.poll
        q.2.elim (q.1, false) fun active =>
          runPhases host phases active q.1 := by
  rw [runPhases]
  dsimp only
  split
  · rfl
  · generalize runPhase host phase us p.poll = q
    obtain ⟨q, active⟩ := q
    cases active <;> rfl

/-- Phases on documents, one phase after another, under any host. -/
theorem runPhases_advance (phases : List Phase) (us : List Uri)
    {vs : List Uri} (hvs : us ⊆ vs) (p : Pass) :
    Advance vs p.scene (runPhases host phases us p).1.scene := by
  induction phases generalizing us p with
  | nil => exact .refl vs p.scene
  | cons phase phases ih =>
    rw [runPhases_elim]
    dsimp only
    split
    · exact .refl vs p.scene
    · have hphase := runPhase_advance host phase us hvs p.poll
      cases hnext : (runPhase host phase us p.poll).2 with
      | none => exact hphase
      | some active =>
        have hactive : active ⊆ us := runPhase_active host hnext
        exact hphase.trans (ih active (fun v hv => hvs (hactive hv)) _)

end Pass

end Purview

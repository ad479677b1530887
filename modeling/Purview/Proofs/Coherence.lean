/-
Whether what a workspace remembers is right. Every request leaves a
right index behind but for one kind of build: whoever changes the
documents evicts what the change touches, and a pass forgets everything
once it has worked on projects.

The one is a build in which the last project goes away. What a text
says is known when it is read, inside the build; a pending project
whose text says something else by now is built with the other
documents, and if no other document takes its place, the build has
worked on no project at all and forgets nothing, although every
document that the project owned has lost its owner (`Scene.Dissolves`).
Horizons that were remembered while the old content stood, by a query
or by the search for documents to relink, then stay. Nothing else goes
wrong: over any run of requests, what the workspace tells is what would
be computed exactly as long as no build lapses in this way
(`truthful_iff`).
-/
import Purview.Proofs.Batch

namespace Purview

-- ============================================================ requests

/-- What can be asked of a workspace. -/
inductive Action where
  | start (files : List SourceFile)
  | put (file : SourceFile)
  | remove (uri : Uri)
  | invalidate (uri : Uri)
  | build
  | update (changes : List Change)
  | notify (change : Change)
  | visible (uri : Uri)
  | isAffected (uri : Uri) (changed : List Uri)

/-- A request, with the host it is made under. -/
structure Request where
  host : Host
  /-- Whether it has been withdrawn before it was made. -/
  withdrawn : Bool
  action : Action

namespace Workspace

/-- The workspace after a request. -/
def serve (w : Workspace) (r : Request) : Workspace :=
  let w := w.begin r.withdrawn
  match r.action with
  | .start files => (w.start r.host files).1
  | .put file => (w.put r.host file).1
  | .remove u => (w.remove r.host u).1
  | .invalidate u => (w.invalidate r.host u).1
  | .build => (w.build r.host).1
  | .update changes => (w.update r.host changes).1
  | .notify c => (w.notify r.host c).1
  | .visible u => (w.visible u).1
  | .isAffected u changed => (w.isAffected u changed).1

/-- The workspace after some requests. -/
def run (w : Workspace) (rs : List Request) : Workspace :=
  rs.foldl serve w

/-- The scene in which the documents of a start have been loaded. -/
def loaded (w : Workspace) (host : Host) (files : List SourceFile) :
    Scene :=
  (files.foldl (Scene.addInitial host) w.scene).reindex Index.clear

/-- The scenes that a request hands to a build, one after another. -/
def builds (w : Workspace) (r : Request) : List Scene :=
  let w := w.begin r.withdrawn
  match r.action with
  | .build => [w.scene]
  | .update changes => [w.scene.prepared r.host changes]
  | .start files =>
    if w.gate.isOpen then [w.scene.prepared r.host (files.map .edit)]
    else
      let first := w.loaded r.host files
      if w.gate.queue.isEmpty then [first]
      else [first, (first.build r.host).1.prepared r.host w.gate.queue]
  | _ => []

/-- A request during which a build lapses. -/
def Lapses (w : Workspace) (r : Request) : Prop :=
  ∃ s ∈ w.builds r, s.Lapses r.host

/-- What a workspace tells of horizons is what would be computed. -/
def Truthful (w : Workspace) : Prop :=
  ∀ u, (w.visible u).2 = (Horizon.of w.store w.builtins u).visible
    ∧ (w.scene.index.look w.store u).2.closure
      = (Horizon.of w.store w.builtins u).closure

theorem truthful_scene {w : Workspace} :
    w.Truthful ↔ w.scene.Truthful := Iff.rfl

end Workspace

-- ============================================================ start-up

namespace Scene

variable (host : Host)

theorem faithful_insert {s : Store} (hs : s.Faithful) (u : Uri)
    {d : Document} (hd : d.Faithful) : (s.insert u d).Faithful := by
  intro v x hx
  rw [Store.get?_insert] at hx
  split at hx
  · cases hx
    exact hd
  · exact hs v x hx

theorem faithful_addBuiltin {s : Scene} (hs : s.store.Faithful)
    (file : SourceFile) : (addBuiltin host s file).store.Faithful := by
  have hinsert := faithful_insert hs file.uri
    (Document.faithful_read file.text)
  intro v x hx
  have hx : ((s.store.insert file.uri (.read file.text)).modify file.uri
    ({ · with builtin := true })).get? v = some x := hx
  rw [Store.get?_modify] at hx
  split at hx
  · obtain ⟨d, hd, rfl⟩ := Option.map_eq_some_iff.1 hx
    exact ⟨(hinsert v d hd).known, (hinsert v d hd).current⟩
  · exact hinsert v x hx

theorem faithful_addInitial {s : Scene} (hs : s.store.Faithful)
    (file : SourceFile) : (addInitial host s file).store.Faithful := by
  unfold addInitial
  split
  · exact hs
  · exact faithful_insert hs file.uri (Document.faithful_read file.text)

end Scene

namespace Workspace

/-- A workspace whose documents are in line with their texts and whose
index is right. -/
structure Sound (w : Workspace) : Prop where
  faithful : w.store.Faithful
  right : w.scene.Right

theorem sound_create (host : Host) (builtins : List SourceFile) :
    (create host builtins).Sound := by
  refine ⟨?_, Index.right_clear _ _⟩
  show (builtins.foldl (Scene.addBuiltin host)
    (Scene.empty [])).store.Faithful
  refine List.foldlRecOn builtins (Scene.addBuiltin host)
    (motive := fun s => s.store.Faithful) ?_ fun s hs file _ =>
      Scene.faithful_addBuiltin host hs file
  intro u d hd
  cases hd

theorem faithful_loaded {w : Workspace} (hw : w.store.Faithful)
    (host : Host) (files : List SourceFile) :
    (w.loaded host files).store.Faithful := by
  refine List.foldlRecOn files (Scene.addInitial host)
    (motive := fun s => s.store.Faithful) hw fun s hs file _ =>
      Scene.faithful_addInitial host hs file

theorem scene_withScene {α : Type} (w : Workspace)
    (f : Scene → Scene × α) : (w.withScene f).1.scene = (f w.scene).1 :=
  rfl

/-- An update ends with the build of what it has prepared. -/
theorem scene_update (w : Workspace) (host : Host)
    (changes : List Change) : (w.update host changes).1.scene
      = ((w.scene.prepared host changes).build host).1 := by
  rw [update, scene_withScene, Scene.update_eq]

/-- A workspace that has started takes documents for an update. -/
theorem start_of_open {w : Workspace} (host : Host)
    (files : List SourceFile) (h : w.gate.isOpen = true) :
    w.start host files = w.update host (files.map .edit) := by
  unfold start
  rw [if_pos h]

/-- A workspace starts with a build, behind which it opens its gate. -/
theorem start_of_closed {w : Workspace} (host : Host)
    (files : List SourceFile) (h : w.gate.isOpen = false) :
    let first := (w.loaded host files).build host
    w.start host files =
      if w.gate.queue.isEmpty then (⟨first.1, ⟨true, []⟩⟩, first.2)
      else
        let later := (⟨first.1, ⟨true, []⟩⟩ : Workspace).update host
          w.gate.queue
        (later.1, first.2.merge later.2) := by
  unfold start Gate.release loaded
  simp only [h, Bool.false_eq_true, if_false]

theorem gate_withScene {α : Type} (w : Workspace)
    (f : Scene → Scene × α) : (w.withScene f).1.gate = w.gate := rfl

theorem gate_update (w : Workspace) (host : Host)
    (changes : List Change) : (w.update host changes).1.gate = w.gate := by
  rw [update, gate_withScene]

/-- What the gate has kept follows as an update. -/
theorem scene_start {w : Workspace} (host : Host)
    (files : List SourceFile) (h : w.gate.isOpen = false)
    (hqueue : w.gate.queue.isEmpty = false) :
    (w.start host files).1.scene
      = ((((w.loaded host files).build host).1.prepared host
          w.gate.queue).build host).1 := by
  rw [start_of_closed host files h]
  simp only [hqueue, Bool.false_eq_true, if_false, scene_update]

theorem gate_start {w : Workspace} (host : Host)
    (files : List SourceFile) (h : w.gate.isOpen = false) :
    (w.start host files).1.gate = ⟨true, []⟩ := by
  rw [start_of_closed host files h]
  dsimp only
  split
  · rfl
  · rw [gate_update]

/-- Where nothing is remembered, no build lapses. -/
theorem not_lapses_loaded (w : Workspace) (host : Host)
    (files : List SourceFile) : ¬ (w.loaded host files).Lapses host := by
  intro hcase
  rcases hcase with ⟨-, e, he, -⟩
  cases he

-- ============================================================ one step

/-- What a scene comes to that is built: in line with its texts, right
if the build does not lapse, and wrong if it does. -/
theorem build_step {s : Scene} (host : Host) (hs : s.store.Faithful)
    (h : s.Right) :
    (s.build host).1.store.Faithful
    ∧ (¬ s.Lapses host → (s.build host).1.Right)
    ∧ (s.Lapses host → ¬ (s.build host).1.Truthful) :=
  ⟨s.build_faithful host hs, s.right_build host hs h,
    s.not_truthful_build host hs h⟩

/-- What a request does to a workspace: it leaves it in line with its
texts, and remembering what is right unless a build lapses. -/
structure Serves (w : Workspace) (r : Request) : Prop where
  faithful : (w.serve r).store.Faithful
  right : ¬ w.Lapses r → (w.serve r).scene.Right
  wrong : w.Lapses r → ¬ (w.serve r).Truthful

/-- A request that builds nothing. -/
theorem serves_of_sound {w : Workspace} {r : Request}
    (hbuilds : w.builds r = []) (h : (w.serve r).Sound) :
    w.Serves r where
  faithful := h.faithful
  right _ := h.right
  wrong hcase := by
    rcases hcase with ⟨s, hs, -⟩
    rw [hbuilds] at hs
    cases hs

/-- A request that ends with the build of a scene, and lapses with it or
not at all. -/
theorem serves_of_build {w : Workspace} {r : Request} {s : Scene}
    (earlier : List Scene) (hbuilds : w.builds r = earlier ++ [s])
    (hearlier : ∀ s ∈ earlier, ¬ s.Lapses r.host)
    (hserve : (w.serve r).scene = (s.build r.host).1)
    (hs : s.store.Faithful) (h : s.Right) : w.Serves r := by
  obtain ⟨hfaithful, hright, hwrong⟩ := build_step r.host hs h
  have hlapses : w.Lapses r ↔ s.Lapses r.host := by
    unfold Lapses
    rw [hbuilds]
    constructor
    · rintro ⟨x, hx, hcase⟩
      rcases List.mem_append.1 hx with hx | hx
      · exact absurd hcase (hearlier x hx)
      · rwa [List.mem_singleton.1 hx] at hcase
    · exact fun hcase =>
        ⟨s, List.mem_append_right _ (List.mem_singleton_self s), hcase⟩
  refine ⟨?_, fun hnot => ?_, fun hcase => ?_⟩
  · rw [Workspace.store, hserve]
    exact hfaithful
  · rw [hserve]
    exact hright (mt hlapses.2 hnot)
  · rw [truthful_scene, hserve]
    exact hwrong (hlapses.1 hcase)

/-- A workspace that has started builds as for an update. -/
theorem builds_restart {w : Workspace} (host : Host) (withdrawn : Bool)
    (files : List SourceFile) (hopen : w.gate.isOpen = true) :
    let r : Request := ⟨host, withdrawn, .start files⟩
    let s := (w.scene.begin withdrawn).prepared host (files.map .edit)
    w.builds r = [s] ∧ (w.serve r).scene = (s.build host).1 := by
  constructor
  · simp only [builds, begin, hopen, if_true]
  · show ((w.begin withdrawn).start host files).1.scene = _
    rw [start_of_open (w := w.begin withdrawn) host files hopen,
      scene_update]
    rfl

/-- A workspace starts with the build of what it has loaded. -/
theorem builds_start {w : Workspace} (host : Host) (withdrawn : Bool)
    (files : List SourceFile) (hopen : w.gate.isOpen = false)
    (hqueue : w.gate.queue.isEmpty = true) :
    let r : Request := ⟨host, withdrawn, .start files⟩
    let s := (w.begin withdrawn).loaded host files
    w.builds r = [s] ∧ (w.serve r).scene = (s.build host).1 := by
  constructor
  · simp only [builds, begin, hopen, hqueue, Bool.false_eq_true, if_false,
      if_true]
  · show ((w.begin withdrawn).start host files).1.scene = _
    rw [start_of_closed (w := w.begin withdrawn) host files hopen]
    simp only [begin, hqueue, if_true]

/-- What the gate has kept is built as for an update, behind what is
loaded. -/
theorem builds_start_kept {w : Workspace} (host : Host) (withdrawn : Bool)
    (files : List SourceFile) (hopen : w.gate.isOpen = false)
    (hqueue : w.gate.queue.isEmpty = false) :
    let r : Request := ⟨host, withdrawn, .start files⟩
    let first := (w.begin withdrawn).loaded host files
    let s := (first.build host).1.prepared host w.gate.queue
    w.builds r = [first, s] ∧ (w.serve r).scene = (s.build host).1 := by
  constructor
  · simp only [builds, begin, hopen, hqueue, Bool.false_eq_true, if_false]
  · exact scene_start (w := w.begin withdrawn) host files hopen hqueue

/-- Nothing is remembered when a workspace starts, so its first build
does not lapse. -/
theorem serves_start {w : Workspace} (hw : w.Sound) (host : Host)
    (withdrawn : Bool) (files : List SourceFile) :
    w.Serves ⟨host, withdrawn, .start files⟩ := by
  have hs : (w.scene.begin withdrawn).store.Faithful := hw.faithful
  have h : (w.scene.begin withdrawn).Right := hw.right
  cases hopen : w.gate.isOpen with
  | true =>
    obtain ⟨hbuilds, hserve⟩ := builds_restart host withdrawn files hopen
    exact serves_of_build [] hbuilds nofun hserve
      (Scene.faithful_prepared host hs _) (Scene.right_prepared host h _)
  | false =>
    have hloaded := faithful_loaded (w := w.begin withdrawn) hs host files
    have hclear : ((w.begin withdrawn).loaded host files).Right :=
      Index.right_clear _ _
    have hnot := not_lapses_loaded (w.begin withdrawn) host files
    cases hqueue : w.gate.queue.isEmpty with
    | true =>
      obtain ⟨hbuilds, hserve⟩ :=
        builds_start host withdrawn files hopen hqueue
      exact serves_of_build [] hbuilds nofun hserve hloaded
        hclear
    | false =>
      obtain ⟨hbuilds, hserve⟩ :=
        builds_start_kept host withdrawn files hopen hqueue
      obtain ⟨hfirst, hright, -⟩ := build_step host hloaded hclear
      refine serves_of_build [_] hbuilds ?_ hserve
        (Scene.faithful_prepared host hfirst _)
        (Scene.right_prepared host (hright hnot) _)
      rintro s hs
      rwa [List.mem_singleton.1 hs]

/-- A notice is kept back while the gate is closed. -/
theorem serves_notify {w : Workspace} (hw : w.Sound) (host : Host)
    (withdrawn : Bool) (c : Change) :
    w.Serves ⟨host, withdrawn, .notify c⟩ := by
  have hs : (w.scene.begin withdrawn).store.Faithful := hw.faithful
  have h : (w.scene.begin withdrawn).Right := hw.right
  refine serves_of_sound rfl ?_
  unfold serve notify Gate.offer
  cases hopen : w.gate.isOpen with
  | false =>
    simp only [begin, hopen]
    exact ⟨hw.faithful, hw.right⟩
  | true =>
    simp only [begin, hopen, if_true]
    exact ⟨Scene.faithful_apply host hs c, Scene.right_apply host h c⟩

/-- What one request does to a sound workspace. -/
theorem serve_step {w : Workspace} (hw : w.Sound) (r : Request) :
    w.Serves r := by
  obtain ⟨host, withdrawn, action⟩ := r
  have hs : (w.scene.begin withdrawn).store.Faithful := hw.faithful
  have h : (w.scene.begin withdrawn).Right := hw.right
  cases action with
  | start files => exact serves_start hw host withdrawn files
  | put file =>
    exact serves_of_sound rfl ⟨Scene.faithful_apply host hs (.edit file),
      Scene.right_apply host h (.edit file)⟩
  | remove u =>
    exact serves_of_sound rfl ⟨Scene.faithful_apply host hs (.removal u),
      Scene.right_apply host h (.removal u)⟩
  | invalidate u =>
    exact serves_of_sound rfl ⟨Scene.faithful_invalidate host hs u,
      Scene.right_invalidate host h u⟩
  | build => exact serves_of_build [] rfl nofun rfl hs h
  | update changes =>
    refine serves_of_build []
      (s := (w.scene.begin withdrawn).prepared host changes) rfl nofun ?_
      (Scene.faithful_prepared host hs _) (Scene.right_prepared host h _)
    simp only [serve, scene_update]
    rfl
  | notify c => exact serves_notify hw host withdrawn c
  | visible u =>
    exact serves_of_sound rfl ⟨hw.faithful,
      Index.Right.grows hw.right (w.scene.index.grows_look w.store u)⟩
  | isAffected u changed =>
    exact serves_of_sound rfl ⟨hw.faithful,
      Index.Right.grows hw.right (w.scene.index.grows_look w.store u)⟩

-- =============================================================== runs

/-- A sound workspace tells what is right until a build lapses. -/
theorem run_truthful_iff {w : Workspace} (hw : w.Sound)
    (rs : List Request) :
    (∀ before after, rs = before ++ after → (w.run before).Truthful) ↔
      ∀ before r after, rs = before ++ r :: after →
        ¬ (w.run before).Lapses r := by
  induction rs generalizing w with
  | nil =>
    constructor
    · intro _ before r after heq
      exact absurd heq (by simp)
    · intro _ before after heq
      obtain ⟨rfl, -⟩ := List.append_eq_nil_iff.1 heq.symm
      exact truthful_scene.2 hw.right.truthful
  | cons r rs ih =>
    obtain ⟨hfaithful, hright, hwrong⟩ := serve_step hw r
    constructor
    · intro htruthful
      have hnot : ¬ w.Lapses r := fun hlapse =>
        hwrong hlapse (htruthful [r] rs rfl)
      have hrest := (ih ⟨hfaithful, hright hnot⟩).1 fun before after heq =>
        htruthful (r :: before) after (by rw [heq]; rfl)
      intro before x after heq
      cases before with
      | nil =>
        cases heq
        exact hnot
      | cons y before =>
        cases heq
        exact hrest before x after rfl
    · intro hnone
      have hnot : ¬ w.Lapses r := hnone [] r rs rfl
      have hrest := (ih ⟨hfaithful, hright hnot⟩).2
        fun before x after heq =>
          hnone (r :: before) x after (by rw [heq]; rfl)
      intro before after heq
      cases before with
      | nil => exact truthful_scene.2 hw.right.truthful
      | cons y before =>
        cases heq
        exact hrest before after rfl

/-- Over any run of requests, what a workspace tells of horizons is what
would be computed, whether remembered or not, exactly as long as no
build lapses. -/
theorem truthful_iff (host : Host) (builtins : List SourceFile)
    (rs : List Request) :
    (∀ before after, rs = before ++ after →
      ((create host builtins).run before).Truthful) ↔
      ∀ before r after, rs = before ++ r :: after →
        ¬ ((create host builtins).run before).Lapses r :=
  run_truthful_iff (sound_create host builtins) rs

/-- A project, of which a query is made between the change that unmakes
it and the build that reads the change. -/
def dissolving : List Request :=
  [⟨.calm, false, .start
      [⟨Uri.ofString "/p/P.sysw", "project P \x7b source \"src\"; \x7d"⟩,
        ⟨Uri.ofString "/p/src/d.sysw", "def A;"⟩]⟩,
    ⟨.calm, false, .put ⟨Uri.ofString "/p/P.sysw", "def X;"⟩⟩,
    ⟨.calm, false, .visible (Uri.ofString "/p/src/d.sysw")⟩,
    ⟨.calm, false, .build⟩]

/-- The document has no owner by then and should see everything, but is
told to see nothing. -/
theorem not_truthful_dissolving :
    ¬ ((create .calm []).run dissolving).Truthful := by
  intro h
  have hvisible := (h (Uri.ofString "/p/src/d.sysw")).1
  have htold : (((create .calm []).run dissolving).visible
      (Uri.ofString "/p/src/d.sysw")).2 = .only [] := by
    decide +kernel
  have hseen : (Horizon.of ((create .calm []).run dissolving).store
      ((create .calm []).run dissolving).builtins
      (Uri.ofString "/p/src/d.sysw")).visible = .all := by
    decide +kernel
  rw [htold, hseen] at hvisible
  cases hvisible

end Workspace

end Purview

/-
What a change comes to, host and trace apart. A change replaces the
document it names (`Store.revised`), sends back some projects
(`Store.recalled`) and touches nothing else (`get?_apply`); which
projects, hangs on the documents alone. Beside that it makes the index
forget, and what it forgets is what the change has moved, so a right
index is right again after it (`right_apply`).
-/
import Purview.Proofs.Pass

namespace Purview

namespace Projects

/-- A change to a project concerns other projects. -/
theorem mem_of_mem_affectedByProject {ps : Projects} {u v : Uri}
    (h : v ∈ affectedByProject ps u) : v ∈ uris ps ∧ v ≠ u := by
  rcases Distinct.mem_union.1 h with h | h
  · exact mem_of_mem_dependents ps h
  · obtain ⟨h, hne⟩ := List.mem_filter.1 h
    refine ⟨?_, by simpa using hne⟩
    exact (List.filter_sublist.map _).subset h

/-- A change to an ordinary document concerns projects. -/
theorem mem_of_mem_affectedByDocument {ps : Projects} {u v : Uri}
    (h : v ∈ affectedByDocument ps u) : v ∈ uris ps := by
  unfold affectedByDocument at h
  split at h
  · cases h
  · exact (mem_of_mem_dependents ps h).1

end Projects

namespace Store

variable (s : Store)

/-- The projects that a change to a loaded document concerns. -/
def concerned (u : Uri) : List Uri :=
  match s.get? u with
  | none => []
  | some d =>
    if d.isProject then s.projects.affectedByProject u
    else s.projects.affectedByDocument u

/-- The projects that a change sends back, if they have been linked. -/
def recalled : Change → List Uri
  | .edit file =>
    match s.get? file.uri with
    | some d => if d.builtin then [] else s.concerned file.uri
    | none =>
      if (Document.read file.text).isProject then
        (s.insert file.uri (.read file.text)).projects.affectedByProject
          file.uri
      else []
  | .removal u => if s.isBuiltin u then [] else s.concerned u

/-- The document that a change names once the change has been made. -/
def revised : Change → Option Document
  | .edit file =>
    match s.get? file.uri with
    | none => some (.read file.text)
    | some d => some (if d.builtin then d else d.outdated.setText file.text)
  | .removal u => (s.get? u).filter (·.builtin)

variable {s}

/-- A new document that describes a project is one more to depend on. -/
theorem recalled_of_none {file : SourceFile}
    (h : s.get? file.uri = none) : s.recalled (.edit file) =
      if (Document.read file.text).isProject then
        (s.insert file.uri (.read file.text)).projects.affectedByProject
          file.uri
      else [] := by
  unfold recalled
  simp only [h]

/-- A change that is refused calls nobody back. -/
theorem recalled_of_builtin {c : Change} {d : Document}
    (h : s.get? c.uri = some d) (hd : d.builtin = true) :
    s.recalled c = [] := by
  cases c with
  | edit file =>
    have h : s.get? file.uri = some d := h
    simp [recalled, h, hd]
  | removal u =>
    have h : s.get? u = some d := h
    simp [recalled, isBuiltin, h, hd]

/-- A change to a loaded document calls back whom it concerns. -/
theorem recalled_of_loaded {c : Change} {d : Document}
    (h : s.get? c.uri = some d) (hd : d.builtin = false) :
    s.recalled c = s.concerned c.uri := by
  cases c with
  | edit file =>
    have h : s.get? file.uri = some d := h
    simp [recalled, h, hd, Change.uri]
  | removal u =>
    have h : s.get? u = some d := h
    simp [recalled, isBuiltin, h, hd, Change.uri]

/-- A change concerns projects. -/
theorem isProject_of_mem_concerned {u v : Uri}
    (h : v ∈ s.concerned u) : s.isProject v = true := by
  refine isProject_iff.2 ?_
  unfold concerned at h
  split at h
  · cases h
  · split at h
    · exact (Projects.mem_of_mem_affectedByProject h).1
    · exact Projects.mem_of_mem_affectedByDocument h

/-- A change sends back projects, apart from the document it names. -/
theorem isProject_of_mem_recalled {c : Change} {v : Uri}
    (hne : v ≠ c.uri) (h : v ∈ s.recalled c) :
    s.isProject v = true := by
  cases c with
  | edit file =>
    unfold recalled at h
    dsimp only at h
    split at h
    · split at h
      · cases h
      · exact isProject_of_mem_concerned h
    · split at h
      · have hv := isProject_iff.2
          (Projects.mem_of_mem_affectedByProject h).1
        unfold isProject at hv ⊢
        rwa [get?_insert, if_neg (by exact hne)] at hv
      · cases h
  | removal u =>
    unfold recalled at h
    dsimp only at h
    split at h
    · cases h
    · exact isProject_of_mem_concerned h

end Store

namespace Document

@[simp] theorem sentBack_outdated (d : Document) :
    d.outdated.sentBack = d.outdated := by
  unfold sentBack
  rw [stage_outdated, if_neg (by decide)]

@[simp] theorem sentBack_read (text : String) :
    (read text).sentBack = read text := by
  have hstage : ¬ Stage.surveyed < (read text).stage :=
    show ¬ Stage.surveyed < Stage.parsed by decide
  rw [sentBack, if_neg hstage]

end Document

-- ======================================================== invalidation

namespace Scene

variable (host : Host)

/-- Accounting for a change to a document: it goes back to the start,
and the projects that the change concerns to where linking starts. -/
theorem store_invalidate (s : Scene) (u : Uri) :
    (s.invalidate host u).1.store = s.store.alter fun v d =>
      if v = u then d.outdated
      else if v ∈ s.store.concerned u then d.sentBack else d := by
  unfold invalidate Store.concerned
  cases hu : s.store.get? u with
  | none =>
    refine (Store.alter_id fun v d hd => ?_).symm
    have hv : v ≠ u := by
      intro heq
      subst heq
      rw [hu] at hd
      cases hd
    simp [hv]
  | some d =>
    simp only [store_reindex, store_sendBackAll, store_modify,
      store_unlink, Store.modify_eq_alter, Store.alter_alter]
    refine Store.alter_congr fun v x _ => ?_
    by_cases hv : v = u
    · simp only [if_pos hv]
      have hout : x.unlink.demote .changed = x.outdated := rfl
      rw [hout, Document.sentBack_outdated, ite_self]
    · simp only [if_neg hv]

/-- The index forgets what may be out of date: everything if the
document is a project, and otherwise what hangs on it. -/
theorem index_invalidate {s : Scene} {u : Uri} {d : Document}
    (hd : s.store.get? u = some d) :
    (s.invalidate host u).1.index =
      if d.isProject then s.index.clear
      else (s.index.evict u).evictClosures (s.store.concerned u) := by
  unfold invalidate Store.concerned
  rw [hd]
  simp only [index_reindex, index_sendBackAll]
  split
  · rfl
  · rfl

/-- Who is not loaded is not invalidated. -/
theorem invalidate_of_none {s : Scene} {u : Uri}
    (h : s.store.get? u = none) : (s.invalidate host u).1 = s := by
  unfold invalidate
  rw [h]

/-- Whether a change to a document leaves the horizon of another one
remembered. -/
def retains (s : Scene) (u v : Uri) (h : Horizon) : Bool :=
  match s.store.get? u with
  | none => true
  | some d => !d.isProject && (decide (v ≠ u)
    && !(s.store.concerned u).any (· ∈ h.closure))

/-- In any case it goes through what it remembers and keeps some of
it. -/
theorem index_invalidate_eq_retain (s : Scene) (u : Uri) :
    (s.invalidate host u).1.index = s.index.retain (s.retains u) := by
  unfold retains
  cases hd : s.store.get? u with
  | none => rw [invalidate_of_none host hd, Index.retain_all]
  | some d =>
    rw [index_invalidate host hd]
    cases hproject : d.isProject with
    | true =>
      rw [if_pos rfl, Index.clear_eq_retain]
      simp only [hproject]
      rfl
    | false =>
      rw [if_neg Bool.false_ne_true]
      simp only [hproject]
      exact s.index.retain_retain _ _

theorem retains_congr {s t : Scene} (h : s.store = t.store) :
    s.retains = t.retains := by
  funext u v horizon
  unfold retains
  rw [h]

/-- Horizons move with the projects that are sent back, or all of them
with a project that changes. -/
theorem right_invalidate {s : Scene} (h : s.Right) (u : Uri) :
    (s.invalidate host u).1.Right := by
  cases hd : s.store.get? u with
  | none =>
    rw [invalidate_of_none host hd]
    exact h
  | some d =>
    unfold Right
    rw [index_invalidate host hd]
    split
    · exact Index.right_clear _ _
    · next hord =>
      have hord : d.descriptor? = none := by
        simpa [Document.isProject] using hord
      refine Index.right_sentBack (h.evict u) ?_ ?_
      · rw [store_invalidate, Store.uris_alter]
      · rw [store_invalidate, ← Store.projects_sentBack]
        rw [Store.projects_eq_filterMap,
          Store.projects_eq_filterMap (s.store.alter _),
          Store.uris_alter, Store.uris_alter]
        refine List.filterMap_congr fun v _ => ?_
        rw [Store.get?_alter, Store.get?_alter]
        by_cases hv : v = u
        · -- the document is ordinary, sent back or not
          subst hv
          rw [hd]
          simp only [Option.map_some, Option.bind_some, if_true]
          rw [Project.ofEntry?_eq_none.2
              (d.descriptor?_outdated.trans hord),
            Project.ofEntry?_eq_none.2]
          split
          · exact d.descriptor?_sentBack.trans hord
          · exact hord
        · simp only [if_neg hv]

/-- A property of documents that outlasts changes: whoever has just been
read has it, and whoever goes back or takes on another text keeps it. -/
structure Lasting (P : Uri → Document → Prop) : Prop where
  read (u : Uri) (text : String) : P u (.read text)
  sentBack {u : Uri} {d : Document} : P u d → P u d.sentBack
  outdated {u : Uri} {d : Document} : P u d → P u d.outdated
  setText {u : Uri} {d : Document} (text : String) :
    P u d → d.stage = .changed → P u (d.setText text)

/-- Invalidation keeps what lasts. -/
theorem lasting_invalidate {P : Uri → Document → Prop} (hP : Lasting P)
    {s : Scene} (h : ∀ v d, s.store.get? v = some d → P v d) (u : Uri) :
    ∀ v d, (s.invalidate host u).1.store.get? v = some d → P v d := by
  intro v d hd
  rw [store_invalidate, Store.get?_alter] at hd
  obtain ⟨x, hx, rfl⟩ := Option.map_eq_some_iff.1 hd
  split
  · exact hP.outdated (h v x hx)
  · split
    · exact hP.sentBack (h v x hx)
    · exact h v x hx

/-- That documents are in line with their texts lasts. -/
theorem lasting_faithful : Lasting fun _ => Document.Faithful where
  read _ := Document.faithful_read
  sentBack := Document.faithful_sentBack
  outdated h := Document.faithful_outdated h.known
  setText text h hstage := Document.faithful_setText h.known hstage text

theorem faithful_invalidate {s : Scene} (hs : s.store.Faithful)
    (u : Uri) : (s.invalidate host u).1.store.Faithful :=
  lasting_invalidate host lasting_faithful hs u

-- ======================================================= single changes

@[simp] theorem store_insertRead (s : Scene) (u : Uri) (text : String) :
    (s.insertRead host u text).store = s.store.insert u (.read text) := rfl

theorem store_insertRead_self (s : Scene) (u : Uri) (text : String) :
    (s.insertRead host u text).store.get? u = some (.read text) := by
  rw [store_insertRead, Store.get?_insert, if_pos rfl]

/-- A document that is new is read and added. -/
theorem put_of_none {s : Scene} {file : SourceFile}
    (h : s.store.get? file.uri = none) :
    s.put host file
      = (s.insertRead host file.uri file.text).added host file.uri := by
  unfold put Store.contains
  rw [h]
  rfl

/-- A builtin is not replaced. -/
theorem put_of_builtin {s : Scene} {file : SourceFile} {d : Document}
    (h : s.store.get? file.uri = some d) (hd : d.builtin = true) :
    s.put host file = (s, .nothing) := by
  unfold put Store.contains Store.isBuiltin
  simp [h, hd]

/-- A loaded document is invalidated and given its text. -/
theorem put_of_loaded {s : Scene} {file : SourceFile} {d : Document}
    (h : s.store.get? file.uri = some d) (hd : d.builtin = false) :
    (s.put host file).1 = (s.invalidate host file.uri).1.modify file.uri
      (·.setText file.text) := by
  unfold put Store.contains Store.isBuiltin
  simp [h, hd]

/-- A builtin is not removed. -/
theorem remove_of_builtin {s : Scene} {u : Uri}
    (h : s.store.isBuiltin u = true) : (s.remove host u).1 = s := by
  unfold remove
  simp [h]

theorem remove_of_none {s : Scene} {u : Uri}
    (h : s.store.get? u = none) : (s.remove host u).1 = s := by
  unfold remove removed Store.isBuiltin Store.contains
  simp [h]

/-- A loaded document is invalidated and taken away. -/
theorem remove_of_loaded {s : Scene} {u : Uri} {d : Document}
    (h : s.store.get? u = some d) (hd : d.builtin = false) :
    (s.remove host u).1.store = (s.invalidate host u).1.store.erase u
    ∧ (s.remove host u).1.index
      = ((s.invalidate host u).1.index.evict u).evictCovering u
    ∧ (s.remove host u).1.trace = (s.invalidate host u).1.trace := by
  unfold remove removed Store.isBuiltin Store.contains
  simp [h, hd]

/-- A new document, with the projects that it concerns. -/
theorem store_added {s : Scene} {u : Uri} {d : Document}
    (hd : s.store.get? u = some d) :
    (s.added host u).1.store = s.store.alter fun v x =>
      if v ∈ (if d.isProject then s.store.projects.affectedByProject u
        else []) then x.sentBack else x := by
  unfold added
  rw [hd]
  dsimp only
  split
  · simp only [store_reindex, store_sendBackAll, *]
  · exact (Store.alter_id fun v x _ => by simp).symm

/-- A change replaces the document it names and sends projects back. -/
theorem get?_apply (s : Scene) (c : Change) (v : Uri) :
    (s.apply host c).1.store.get? v =
      if v = c.uri then s.store.revised c
      else (s.store.get? v).map fun d =>
        if v ∈ s.store.recalled c then d.sentBack else d := by
  cases c with
  | edit file =>
    show (s.put host file).1.store.get? v
      = if v = file.uri then s.store.revised (.edit file) else _
    cases hd : s.store.get? file.uri with
    | none =>
      rw [put_of_none host hd, store_added host
          (store_insertRead_self host s file.uri file.text),
        Store.get?_alter, store_insertRead, Store.get?_insert,
        Store.recalled_of_none hd]
      by_cases hv : v = file.uri
      · simp [hv, hd, Store.revised]
      · simp only [if_neg hv]
    | some d =>
      cases hb : d.builtin with
      | true =>
        rw [put_of_builtin host hd hb, Store.recalled_of_builtin hd hb]
        by_cases hv : v = file.uri
        · simp [hv, hd, hb, Store.revised]
        · simp [hv]
      | false =>
        rw [put_of_loaded host hd hb, store_modify, Store.get?_modify,
          store_invalidate, Store.get?_alter,
          Store.recalled_of_loaded hd hb]
        by_cases hv : v = file.uri
        · simp [hv, hd, hb, Store.revised]
        · simp only [if_neg hv]
          rfl
  | removal u =>
    show (s.remove host u).1.store.get? v
      = if v = u then s.store.revised (.removal u) else _
    cases hd : s.store.get? u with
    | none =>
      rw [remove_of_none host hd]
      by_cases hv : v = u
      · simp [hv, hd, Store.revised]
      · simp [hv, Store.recalled, Store.isBuiltin, Store.concerned, hd]
    | some d =>
      cases hb : d.builtin with
      | true =>
        rw [remove_of_builtin host (by simp [Store.isBuiltin, hd, hb]),
          Store.recalled_of_builtin hd hb]
        by_cases hv : v = u
        · simp [hv, hd, Store.revised, Option.filter_some, hb]
        · simp [hv]
      | false =>
        rw [(remove_of_loaded host hd hb).1, Store.get?_erase,
          store_invalidate, Store.get?_alter,
          Store.recalled_of_loaded hd hb]
        by_cases hv : v = u
        · simp [hv, hd, Store.revised, Option.filter_some, hb]
        · simp only [if_neg hv]
          rfl

/-- A new identity comes last, and a dropped one leaves the order of the
others alone. -/
theorem uris_apply (s : Scene) (c : Change) :
    (s.apply host c).1.store.uris =
      match c with
      | .edit file => Distinct.insert s.store.uris file.uri
      | .removal u =>
        if s.store.isBuiltin u then s.store.uris
        else s.store.uris.filter (· ≠ u) := by
  cases c with
  | edit file =>
    show (s.put host file).1.store.uris = _
    unfold Distinct.insert
    cases hd : s.store.get? file.uri with
    | none =>
      rw [put_of_none host hd, store_added host
        (store_insertRead_self host s file.uri file.text),
        Store.uris_alter]
      exact Store.uris_insert _ _ _
    | some d =>
      have hmem : file.uri ∈ s.store.uris :=
        (Store.isSome_get? _ _).1 (by rw [hd]; rfl)
      simp only [if_pos hmem]
      cases hb : d.builtin with
      | true => rw [put_of_builtin host hd hb]
      | false =>
        rw [put_of_loaded host hd hb, store_modify, Store.uris_modify,
          store_invalidate, Store.uris_alter]
  | removal u =>
    show (s.remove host u).1.store.uris = _
    dsimp only
    cases hd : s.store.get? u with
    | none =>
      rw [remove_of_none host hd]
      have hmem : u ∉ s.store.uris := (Store.get?_eq_none _ _).1 hd
      split
      · rfl
      · refine (List.filter_eq_self.2 fun v hv => ?_).symm
        rw [decide_eq_true_eq]
        intro heq
        subst heq
        exact hmem hv
    | some d =>
      have hbuiltin : s.store.isBuiltin u = d.builtin := by
        simp [Store.isBuiltin, hd]
      rw [hbuiltin]
      cases hb : d.builtin with
      | true =>
        rw [remove_of_builtin host (hbuiltin.trans hb)]
        rfl
      | false =>
        rw [(remove_of_loaded host hd hb).1, Store.uris_erase,
          store_invalidate, Store.uris_alter]
        rfl

/-- What a change makes of the documents hangs on the documents alone. -/
theorem store_apply_congr {s t : Scene} (h : t.store = s.store)
    (c : Change) : (t.apply host c).1.store = (s.apply host c).1.store := by
  refine Store.ext_get? ?_ fun u => ?_
  · simp only [uris_apply, h]
  · simp only [get?_apply, h]

/-- A document that is given a text keeps its content for now. -/
theorem sameLayout_setText (s : Store) (u : Uri) (text : String) :
    Store.SameLayout (s.modify u (·.setText text)) s := by
  rw [Store.modify_eq_alter]
  refine Store.sameLayout_alter fun v d _ => ?_
  split <;> rfl

/-- Who changes a document makes the index forget what is wrong. -/
theorem right_apply {s : Scene} (h : s.Right) (c : Change) :
    (s.apply host c).1.Right := by
  cases c with
  | edit file =>
    show (s.put host file).1.Right
    cases hd : s.store.get? file.uri with
    | none =>
      rw [put_of_none host hd]
      have hmem : file.uri ∉ s.store.uris :=
        (Store.get?_eq_none _ _).1 hd
      unfold added
      rw [store_insertRead_self]
      dsimp only
      split
      · exact Index.right_clear _ _
      · next hord =>
        refine Index.right_insert h hmem ?_
        simpa [Document.isProject] using hord
    | some d =>
      cases hb : d.builtin with
      | true =>
        rw [put_of_builtin host hd hb]
        exact h
      | false =>
        rw [put_of_loaded host hd hb]
        exact Index.Right.layout (right_invalidate host h file.uri)
          (sameLayout_setText _ _ _).symm
  | removal u =>
    show (s.remove host u).1.Right
    cases hd : s.store.get? u with
    | none =>
      rw [remove_of_none host hd]
      exact h
    | some d =>
      cases hb : d.builtin with
      | true =>
        rw [remove_of_builtin host (by simp [Store.isBuiltin, hd, hb])]
        exact h
      | false =>
        obtain ⟨hstore, hindex, -⟩ := remove_of_loaded host hd hb
        unfold Right
        rw [hstore, hindex]
        by_cases hproject : d.isProject = true
        · -- everything has been forgotten
          rw [index_invalidate host hd, if_pos hproject]
          exact ((Index.right_clear s.index _).evict u).retain
            fun _ _ => rfl
        · refine Index.right_erase
            ((right_invalidate host h u).evict u) fun x hx => ?_
          rw [store_invalidate, Store.get?_alter, hd] at hx
          obtain rfl : d.outdated = x := by simpa using hx
          simpa [Document.isProject] using hproject

/-- A change keeps what lasts. -/
theorem lasting_apply {P : Uri → Document → Prop} (hP : Lasting P)
    {s : Scene} (h : ∀ v d, s.store.get? v = some d → P v d)
    (c : Change) : ∀ v d, (s.apply host c).1.store.get? v = some d → P v d := by
  intro v d hd
  rw [get?_apply] at hd
  split at hd
  · next hv =>
    subst hv
    cases c with
    | edit file =>
      unfold Store.revised at hd
      dsimp only at hd
      split at hd
      · cases hd
        exact hP.read _ _
      · next x hx =>
        cases hd
        split
        · exact h _ x hx
        · exact hP.setText _ (hP.outdated (h _ x hx)) x.stage_outdated
    | removal u => exact h u d (Option.filter_eq_some_iff.1 hd).1
  · obtain ⟨x, hx, rfl⟩ := Option.map_eq_some_iff.1 hd
    split
    · exact hP.sentBack (h v x hx)
    · exact h v x hx

theorem faithful_apply {s : Scene} (hs : s.store.Faithful) (c : Change) :
    (s.apply host c).1.store.Faithful :=
  lasting_apply host lasting_faithful hs c

end Scene

end Purview

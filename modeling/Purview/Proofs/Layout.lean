/-
What a horizon hangs on. `Horizon.of` reads two things off the loaded
documents: their identities in load order, and the projects among them
with their stages. A change to the documents that leaves both alone,
their layout, leaves every horizon alone (`horizon_of_layout`), and
most of what a request does is such a change: it works on documents in
place, and what it works on is ordinary.

Four changes do move the layout, and each moves only some horizons:
  - an ordinary document that is loaded or dropped comes or goes in the
    horizons with a folder above it;
  - a project that is sent back ends the edges to it, which only the
    closures that have it can tell (`closure_map_sentBack`);
  - a text that is read may make or unmake a project, which can move
    any horizon, and for which nothing is claimed here.
-/
import Mathlib.Data.List.Basic
import Purview.Proofs.Reach
import Purview.Scene

namespace Purview

-- ================================================================= keys

section Keys

variable {β : Type} {es : List (Uri × β)} {u : Uri} {b : β}

/-- What is found under a key is an entry. -/
theorem mem_of_lookup (h : es.lookup u = some b) : (u, b) ∈ es := by
  obtain ⟨l₁, l₂, hl, -⟩ := List.lookup_eq_some_iff.1 h
  rw [hl]
  simp

/-- Where keys are not repeated, an entry is found under its key. -/
theorem lookup_of_mem (hnd : (es.map Prod.fst).Nodup)
    (h : (u, b) ∈ es) : es.lookup u = some b := by
  induction es with
  | nil => cases h
  | cons e es ih =>
    obtain ⟨he, hrest⟩ := List.nodup_cons.1 hnd
    rw [List.lookup_cons]
    rcases List.mem_cons.1 h with rfl | h
    · simp
    · have hne : u ≠ e.1 := fun heq =>
        he (heq ▸ List.mem_map_of_mem h)
      rw [beq_eq_false_iff_ne.2 hne]
      exact ih hrest h

end Keys

/-- Source folders hang on the projects they are taken from. -/
theorem Projects.folders_congr {ps qs : Projects} {us : List Uri}
    (h : ∀ u ∈ us, (get? ps u).map Project.folders
      = (get? qs u).map Project.folders) :
    folders ps us = folders qs us := by
  have hflat : ∀ (rs : Projects) (vs : List Uri),
      (vs.filterMap (get? rs)).flatMap Project.folders
        = (vs.filterMap fun v => (get? rs v).map Project.folders).flatten
      := by
    intro rs vs
    rw [← List.map_filterMap, List.flatMap_def]
  unfold folders
  rw [hflat, hflat, List.filterMap_congr h]

-- ===================================================== changes in place

namespace Store

/-- Changes every document in place. -/
def alter (s : Store) (f : Uri → Document → Document) : Store where
  entries := s.entries.map fun e => (e.1, f e.1 e.2)
  nodup := by
    rw [List.map_map]
    exact s.nodup

/-- An entry is a document at its identity. -/
theorem mem_entries {s : Store} {u : Uri} {d : Document} :
    (u, d) ∈ s.entries ↔ s.get? u = some d :=
  ⟨lookup_of_mem s.nodup, mem_of_lookup⟩

@[simp] theorem uris_alter (s : Store) (f : Uri → Document → Document) :
    (s.alter f).uris = s.uris := by
  unfold uris alter
  rw [List.map_map]
  rfl

/-- A change in place reaches each document where it is. -/
@[simp] theorem get?_alter (s : Store) (f : Uri → Document → Document)
    (u : Uri) : (s.alter f).get? u = (s.get? u).map (f u) := by
  show (s.entries.map fun e => (e.1, f e.1 e.2)).lookup u
    = (s.entries.lookup u).map (f u)
  generalize s.entries = es
  induction es with
  | nil => rfl
  | cons e es ih =>
    rw [List.map_cons, List.lookup_cons, List.lookup_cons]
    split
    · next h => rw [eq_of_beq h]; rfl
    · exact ih

theorem alter_alter (s : Store) (f g : Uri → Document → Document) :
    (s.alter f).alter g = s.alter fun u d => g u (f u d) := by
  unfold alter
  congr 1
  rw [List.map_map]
  rfl

/-- Changes that agree on the loaded documents are one change. -/
theorem alter_congr {s : Store} {f g : Uri → Document → Document}
    (h : ∀ u d, s.get? u = some d → f u d = g u d) :
    s.alter f = s.alter g := by
  unfold alter
  congr 1
  refine List.map_congr_left fun e he => ?_
  rw [h e.1 e.2 (mem_entries.1 he)]

/-- A change of nothing. -/
theorem alter_id {s : Store} {f : Uri → Document → Document}
    (h : ∀ u d, s.get? u = some d → f u d = d) : s.alter f = s := by
  rw [alter_congr (g := fun _ d => d) h]
  unfold alter
  congr 1
  exact List.map_id _

theorem modify_eq_alter (s : Store) (u : Uri) (f : Document → Document) :
    s.modify u f = s.alter fun v d => if v = u then f d else d := by
  unfold modify alter
  congr 1
  refine List.map_congr_left fun e _ => ?_
  dsimp only
  split <;> rfl

/-- Identities are not repeated. -/
theorem uris_nodup (s : Store) : s.uris.Nodup := s.nodup

-- ============================================================= projects

/-- A project is a loaded document that describes one. -/
theorem mem_projects {s : Store} {p : Project} :
    p ∈ s.projects ↔ ∃ d, s.get? p.uri = some d
      ∧ d.descriptor? = some p.descriptor ∧ d.stage = p.stage := by
  unfold projects
  rw [List.mem_filterMap]
  constructor
  · intro hcase
    rcases hcase with ⟨⟨u, d⟩, he, hp⟩
    obtain ⟨x, hx, rfl⟩ := Option.map_eq_some_iff.1 hp
    exact ⟨d, mem_entries.1 he, hx, rfl⟩
  · intro hcase
    rcases hcase with ⟨d, hd, hx, hstage⟩
    refine ⟨(p.uri, d), mem_entries.2 hd, ?_⟩
    unfold Project.ofEntry?
    rw [hx, hstage]
    rfl

/-- The identities of the projects are among those of the documents. -/
theorem uris_projects_sublist (s : Store) :
    (Projects.uris s.projects).Sublist s.uris := by
  unfold Projects.uris projects uris
  generalize s.entries = es
  induction es with
  | nil => exact .slnil
  | cons e es ih =>
    rw [List.filterMap_cons]
    split
    · exact ih.cons e.1
    · next p hp =>
      obtain ⟨x, -, rfl⟩ := Option.map_eq_some_iff.1 hp
      exact ih.cons_cons e.1

theorem uris_projects_nodup (s : Store) :
    (Projects.uris s.projects).Nodup :=
  s.uris_nodup.sublist s.uris_projects_sublist

/-- A change in place moves the projects one by one. -/
theorem projects_alter_map {s : Store} {f : Uri → Document → Document}
    {g : Project → Project}
    (h : ∀ u d, s.get? u = some d → Project.ofEntry? (u, f u d)
      = (Project.ofEntry? (u, d)).map g) :
    (s.alter f).projects = s.projects.map g := by
  unfold projects alter
  rw [List.filterMap_map, List.map_filterMap]
  refine List.filterMap_congr fun e he => ?_
  exact h e.1 e.2 (mem_entries.1 he)

/-- A change in place that keeps every project as it is. -/
theorem projects_alter {s : Store} {f : Uri → Document → Document}
    (h : ∀ u d, s.get? u = some d →
      Project.ofEntry? (u, f u d) = Project.ofEntry? (u, d)) :
    (s.alter f).projects = s.projects := by
  rw [projects_alter_map (g := id) (by simpa using h), List.map_id]

-- =============================================================== layout

/-- What horizons hang on: identities in load order, and projects. -/
def SameLayout (s t : Store) : Prop :=
  s.uris = t.uris ∧ s.projects = t.projects

theorem SameLayout.refl (s : Store) : SameLayout s s := ⟨rfl, rfl⟩

theorem SameLayout.symm {s t : Store} (h : SameLayout s t) :
    SameLayout t s := ⟨h.1.symm, h.2.symm⟩

theorem SameLayout.trans {s t r : Store} (h : SameLayout s t)
    (h' : SameLayout t r) : SameLayout s r :=
  ⟨h.1.trans h'.1, h.2.trans h'.2⟩

/-- A document is a project if it is listed as one. -/
theorem isProject_iff {s : Store} {u : Uri} :
    s.isProject u = true ↔ u ∈ Projects.uris s.projects := by
  constructor
  · intro h
    obtain ⟨d, hd, hproject⟩ := (Option.any_eq_true _ _).1 h
    obtain ⟨x, hx⟩ := Option.isSome_iff_exists.1 hproject
    exact List.mem_map.2
      ⟨⟨u, x, d.stage⟩, mem_projects.2 ⟨d, hd, hx, rfl⟩, rfl⟩
  · intro h
    obtain ⟨p, hp, rfl⟩ := List.mem_map.1 h
    obtain ⟨d, hd, hx, -⟩ := mem_projects.1 hp
    exact (Option.any_eq_true _ _).2
      ⟨d, hd, Option.isSome_iff_exists.2 ⟨_, hx⟩⟩

theorem SameLayout.isProject {s t : Store} (h : SameLayout s t)
    (u : Uri) : s.isProject u = t.isProject u := by
  rw [Bool.eq_iff_iff, isProject_iff, isProject_iff, h.2]

/-- Horizons only depend on the layout. -/
theorem horizon_of_layout {s t : Store} (h : SameLayout s t)
    (builtins : List Uri) (u : Uri) :
    Horizon.of s builtins u = Horizon.of t builtins u := by
  unfold Horizon.of
  rw [h.1, h.2]

/-- The projects, document by document. -/
theorem projects_eq_filterMap (s : Store) :
    s.projects = s.uris.filterMap fun v =>
      (s.get? v).bind fun d => Project.ofEntry? (v, d) := by
  unfold projects uris
  rw [List.filterMap_map]
  refine List.filterMap_congr fun e he => ?_
  rw [Function.comp_apply, mem_entries.1 he]
  rfl

/-- Stores are compared document by document. -/
theorem ext_get? {s t : Store} (huris : t.uris = s.uris)
    (h : ∀ v, t.get? v = s.get? v) : t = s := by
  have hentries : ∀ r : Store, r.entries
      = r.uris.filterMap fun v => (r.get? v).map fun d => (v, d) := by
    intro r
    unfold uris
    rw [List.filterMap_map]
    refine ((List.filterMap_congr fun e he => ?_).trans
      List.filterMap_some).symm
    rw [Function.comp_apply, mem_entries.1 he]
    rfl
  have hsame : t.entries = s.entries := by
    rw [hentries t, hentries s, huris]
    exact List.filterMap_congr fun v _ => by rw [h]
  cases t
  cases s
  congr 1

/-- Layouts are compared document by document. -/
theorem sameLayout_of_get? {s t : Store} (huris : t.uris = s.uris)
    (h : ∀ v, ((t.get? v).bind fun d => Project.ofEntry? (v, d))
      = (s.get? v).bind fun d => Project.ofEntry? (v, d)) :
    SameLayout t s := by
  refine ⟨huris, ?_⟩
  rw [projects_eq_filterMap, projects_eq_filterMap, huris]
  exact List.filterMap_congr fun v _ => h v

/-- Work on documents in place keeps the layout if it makes no project,
unmakes none and moves none to another stage. -/
theorem sameLayout_alter {s : Store} {f : Uri → Document → Document}
    (h : ∀ u d, s.get? u = some d →
      Project.ofEntry? (u, f u d) = Project.ofEntry? (u, d)) :
    SameLayout (s.alter f) s :=
  ⟨s.uris_alter f, projects_alter h⟩

/-- Where the projects of a closure are the same before and after, the
closure and what is seen say all there is to a horizon. -/
theorem horizon_of_closure {s t : Store} {builtins : List Uri} {u : Uri}
    (hsame : ∀ p ∈ s.projects, ∀ q ∈ t.projects, q.uri = p.uri →
      q.descriptor = p.descriptor)
    (hvisible : (Horizon.of s builtins u).visible
      = (Horizon.of t builtins u).visible)
    (hclosure : (Horizon.of s builtins u).closure
      = (Horizon.of t builtins u).closure) :
    Horizon.of s builtins u = Horizon.of t builtins u := by
  have hself : ∀ (r : Store) (owner : Project),
      r.projects.ownerOf? u = some owner →
        owner.uri ∈ r.projects.closure .linked owner.uri := by
    intro r owner howner
    exact (Projects.mem_closure _).2
      ⟨List.mem_map_of_mem (List.mem_of_find?_eq_some howner), .refl⟩
  unfold Horizon.of at hvisible hclosure ⊢
  cases hp : s.projects.ownerOf? u with
  | none =>
    cases hq : t.projects.ownerOf? u with
    | none => rfl
    | some q =>
      rw [hp, hq] at hclosure
      have hmem := hself t q hq
      rw [show t.projects.closure .linked q.uri = [] from hclosure.symm]
        at hmem
      cases hmem
  | some p =>
    cases hq : t.projects.ownerOf? u with
    | none =>
      rw [hp, hq] at hclosure
      have hmem := hself s p hp
      rw [show s.projects.closure .linked p.uri = [] from hclosure]
        at hmem
      cases hmem
    | some q =>
      rw [hp, hq] at hvisible hclosure
      have hclosure : s.projects.closure .linked p.uri
          = t.projects.closure .linked q.uri := hclosure
      have hfolders : s.projects.folders
            (s.projects.closure .linked p.uri)
          = t.projects.folders (t.projects.closure .linked q.uri) := by
        rw [← hclosure]
        refine Projects.folders_congr fun v hv => ?_
        obtain ⟨p', hp', rfl⟩ :=
          List.mem_map.1 (Walk.preorder_subset _ _ _ hv)
        rw [hclosure] at hv
        obtain ⟨q', hq', huri⟩ :=
          List.mem_map.1 (Walk.preorder_subset _ _ _ hv)
        have hget : t.projects.get? p'.uri = some q' :=
          huri ▸ Projects.get?_of_mem t.uris_projects_nodup hq'
        rw [Projects.get?_of_mem s.uris_projects_nodup hp', hget]
        simp [Project.folders, hsame p' hp' q' hq' huri, huri]
      simp only [Horizon.mk.injEq]
      exact ⟨hclosure, hfolders, hvisible⟩

end Store

/-- A document that stays ordinary is no project before or after. -/
theorem Project.ofEntry?_eq_none {e : Uri × Document} :
    Project.ofEntry? e = none ↔ e.2.descriptor? = none := by
  unfold Project.ofEntry?
  exact Option.map_eq_none_iff

namespace Store

-- ==================================== ordinary documents come and go

/-- Loading an ordinary document under a new identity. -/
theorem projects_insert {s : Store} {u : Uri} (hu : u ∉ s.uris)
    {d : Document} (hd : d.descriptor? = none) :
    (s.insert u d).projects = s.projects := by
  unfold insert
  rw [dif_neg hu]
  show (s.entries ++ [(u, d)]).filterMap Project.ofEntry? = _
  rw [List.filterMap_append, List.filterMap_cons,
    Project.ofEntry?_eq_none.2 hd, List.filterMap_nil, List.append_nil]
  rfl

/-- Dropping an ordinary document. -/
theorem projects_erase {s : Store} {u : Uri}
    (hu : ∀ d, s.get? u = some d → d.descriptor? = none) :
    (s.erase u).projects = s.projects := by
  have hsub : ∀ e ∈ s.entries, e.1 = u → Project.ofEntry? e = none := by
    rintro ⟨v, d⟩ he rfl
    exact Project.ofEntry?_eq_none.2 (hu d (mem_entries.1 he))
  show (s.entries.filter fun e => e.1 ≠ u).filterMap Project.ofEntry?
    = s.entries.filterMap Project.ofEntry?
  generalize s.entries = es at hsub
  induction es with
  | nil => rfl
  | cons e es ih =>
    have ih := ih fun e' he' => hsub e' (List.mem_cons_of_mem e he')
    by_cases he : e.1 = u
    · rw [List.filter_cons_of_neg (by simpa using he), ih,
        List.filterMap_cons, hsub e List.mem_cons_self he]
    · rw [List.filter_cons_of_pos (by simpa using he),
        List.filterMap_cons, List.filterMap_cons, ih]

/-- A new ordinary document is seen by those with a folder above it and
by nobody else. -/
theorem horizon_insert {s : Store} {u : Uri} (hu : u ∉ s.uris)
    {d : Document} (hd : d.descriptor? = none) (builtins : List Uri)
    {v : Uri} (hv : ¬ (Horizon.of s builtins v).folders.any u.isWithin) :
    Horizon.of (s.insert u d) builtins v = Horizon.of s builtins v := by
  unfold Horizon.of at hv ⊢
  rw [projects_insert hu hd, uris_insert, if_neg hu]
  split
  · rfl
  · next owner howner =>
    rw [howner] at hv
    simp only [Bool.not_eq_true] at hv
    simp only [List.filter_append, List.filter_cons, List.filter_nil]
    rw [hv]
    simp

/-- A dropped ordinary document was seen by those with a folder above
it and by nobody else. -/
theorem horizon_erase {s : Store} {u : Uri}
    (hu : ∀ d, s.get? u = some d → d.descriptor? = none)
    (builtins : List Uri) {v : Uri}
    (hv : ¬ (Horizon.of s builtins v).folders.any u.isWithin) :
    Horizon.of (s.erase u) builtins v = Horizon.of s builtins v := by
  unfold Horizon.of at hv ⊢
  rw [projects_erase hu, uris_erase]
  split
  · rfl
  · next owner howner =>
    rw [howner] at hv
    simp only [Bool.not_eq_true] at hv
    simp only [List.filter_filter]
    congr 3
    refine List.filter_congr fun x _ => ?_
    by_cases hx : x = u
    · subst hx
      rw [hv]
      simp
    · simp [hx]

end Store

-- ==================================================== going back

/-- Sent back to where linking starts, without targets. A document that
has not been linked stays as it is. -/
def Document.sentBack (d : Document) : Document :=
  if Stage.surveyed < d.stage then d.unlink.demote .surveyed else d

/-- Sent back to the very start, without targets. -/
def Document.outdated (d : Document) : Document :=
  d.unlink.demote .changed

/-- A project as it is after some documents have been sent back. -/
def Project.sentBack (us : List Uri) (p : Project) : Project :=
  if p.uri ∈ us ∧ Stage.surveyed < p.stage then
    { p with stage := .surveyed } else p

namespace Document

@[simp] theorem descriptor?_unlink (d : Document) :
    d.unlink.descriptor? = d.descriptor? := by
  unfold descriptor? unlink
  cases d.content with
  | none => rfl
  | some c => cases c <;> rfl

@[simp] theorem descriptor?_demote (d : Document) (target : Stage) :
    (d.demote target).descriptor? = d.descriptor? := by
  unfold demote
  split <;> rfl

@[simp] theorem descriptor?_outdated (d : Document) :
    d.outdated.descriptor? = d.descriptor? := by
  simp [outdated]

@[simp] theorem descriptor?_sentBack (d : Document) :
    d.sentBack.descriptor? = d.descriptor? := by
  unfold sentBack
  split <;> simp

/-- Who has been linked is sent to where linking starts. -/
theorem stage_sentBack (d : Document) :
    d.sentBack.stage
      = if Stage.surveyed < d.stage then .surveyed else d.stage := by
  unfold sentBack
  split
  · next h =>
    have h' : Stage.surveyed < d.unlink.stage := h
    unfold demote
    rw [if_pos h']
  · rfl

/-- Nobody who has been sent back is past where linking starts. -/
theorem stage_sentBack_le (d : Document) :
    d.sentBack.stage ≤ .surveyed := by
  rw [stage_sentBack]
  split
  · exact Nat.le_refl _
  · next h => exact Nat.not_lt.1 h

/-- So nobody who has been sent back is complete. -/
theorem stage_sentBack_lt (d : Document) :
    d.sentBack.stage < .validated :=
  Nat.lt_of_le_of_lt d.stage_sentBack_le (by decide)

/-- Being sent back twice is being sent back. -/
@[simp] theorem sentBack_sentBack (d : Document) :
    d.sentBack.sentBack = d.sentBack :=
  if_neg (Nat.not_lt.2 d.stage_sentBack_le)

end Document

namespace Project

@[simp] theorem uri_sentBack (us : List Uri) (p : Project) :
    (p.sentBack us).uri = p.uri := by
  unfold sentBack
  split <;> rfl

@[simp] theorem descriptor_sentBack (us : List Uri) (p : Project) :
    (p.sentBack us).descriptor = p.descriptor := by
  unfold sentBack
  split <;> rfl

@[simp] theorem folders_sentBack (us : List Uri) (p : Project) :
    (p.sentBack us).folders = p.folders := by
  simp [folders]

@[simp] theorem owns_sentBack (us : List Uri) (p : Project) (u : Uri) :
    (p.sentBack us).owns u = p.owns u := by
  simp [owns]

/-- A project that is not sent back stays as it is. -/
theorem sentBack_of_not_mem {us : List Uri} {p : Project}
    (h : p.uri ∉ us) : p.sentBack us = p := by
  unfold sentBack
  rw [if_neg fun h' => h h'.1]

/-- A project that is sent back is not linked. -/
theorem not_linked_sentBack (us : List Uri) {p : Project}
    (h : ¬ Stage.linked ≤ p.stage) :
    ¬ Stage.linked ≤ (p.sentBack us).stage := by
  unfold sentBack
  split
  · exact show ¬ Stage.linked ≤ Stage.surveyed by decide
  · exact h

end Project

namespace Projects

variable (us : List Uri) (ps : Projects)

@[simp] theorem uris_map_sentBack :
    uris (ps.map (Project.sentBack us)) = uris ps := by
  unfold uris
  rw [List.map_map]
  exact List.map_congr_left fun p _ => p.uri_sentBack us

theorem get?_map_sentBack (u : Uri) :
    get? (ps.map (Project.sentBack us)) u
      = (get? ps u).map (Project.sentBack us) := by
  unfold get?
  rw [List.find?_map]
  congr 2
  funext p
  simp

theorem named?_map_sentBack (name : String) :
    named? (ps.map (Project.sentBack us)) name
      = (named? ps name).map (Project.sentBack us) := by
  unfold named?
  rw [List.find?_map]
  congr 2
  funext p
  simp

theorem ownerOf?_map_sentBack (u : Uri) :
    ownerOf? (ps.map (Project.sentBack us)) u
      = (ownerOf? ps u).map (Project.sentBack us) := by
  unfold ownerOf?
  rw [List.find?_map]
  congr 2
  funext p
  simp

theorem folders_map_sentBack (vs : List Uri) :
    folders (ps.map (Project.sentBack us)) vs = folders ps vs := by
  unfold folders
  congr 1
  induction vs with
  | nil => rfl
  | cons v vs ih =>
    rw [List.filterMap_cons, List.filterMap_cons, get?_map_sentBack]
    cases get? ps v with
    | none => exact ih
    | some p => simp [ih]

/-- The edges of a project over which nobody is sent back. -/
theorem targets_map_sentBack {us : List Uri} {ps : Projects} {u : Uri}
    (h : ∀ v ∈ targets ps .linked u, v ∉ us) :
    targets (ps.map (Project.sentBack us)) .linked u
      = targets ps .linked u := by
  unfold targets at h ⊢
  rw [get?_map_sentBack]
  cases hp : get? ps u with
  | none => rfl
  | some p =>
    rw [hp] at h
    simp only [Option.map_some, edges, Project.descriptor_sentBack]
    refine List.filterMap_congr fun d hd => ?_
    rw [named?_map_sentBack]
    cases hq : named? ps d.name with
    | none => rfl
    | some q =>
      -- an edge that was followed leads to one who stays; an edge that
      -- was not leads to one who has not been linked
      by_cases hlinked : Stage.linked ≤ q.stage
      · have hmem : q.uri ∈ edges ps .linked p :=
          List.mem_filterMap.2 ⟨d, hd, by
            simp [hq, EdgePolicy.admits, hlinked]⟩
        rw [Option.map_some,
          Project.sentBack_of_not_mem (h q.uri hmem)]
      · have hback := Project.not_linked_sentBack us hlinked
        simp [Option.filter_some, EdgePolicy.admits, hlinked, hback]

/-- A closure that has nobody who is sent back stays as it is. -/
theorem closure_map_sentBack {us : List Uri} {ps : Projects} {root : Uri}
    (h : ∀ v ∈ closure ps .linked root, v ∉ us) :
    closure (ps.map (Project.sentBack us)) .linked root
      = closure ps .linked root := by
  unfold closure at h ⊢
  rw [uris_map_sentBack]
  refine Walk.preorder_congr _ _ fun v hv => targets_map_sentBack ?_
  intro x hx
  exact h x (Walk.preorder_closed _ _ _ v hv x hx
    (targets_subset ps .linked v hx))

end Projects

/-- A document that is sent back is the project that is sent back. -/
theorem Project.ofEntry?_sentBack (us : List Uri) (u : Uri)
    (d : Document) :
    Project.ofEntry? (u, if u ∈ us then d.sentBack else d)
      = (Project.ofEntry? (u, d)).map (Project.sentBack us) := by
  unfold Project.ofEntry?
  by_cases hu : u ∈ us
  · simp only [if_pos hu, Document.descriptor?_sentBack,
      Document.stage_sentBack]
    cases d.descriptor? with
    | none => rfl
    | some x =>
      simp only [Option.map_some, Project.sentBack, hu, true_and]
      split <;> rfl
  · simp only [if_neg hu]
    cases d.descriptor? with
    | none => rfl
    | some x =>
      rw [Option.map_some, Option.map_some,
        Project.sentBack_of_not_mem (by exact hu)]

namespace Store

/-- The projects after some documents have been sent back. -/
theorem projects_sentBack (s : Store) (us : List Uri) :
    (s.alter fun v d => if v ∈ us then d.sentBack else d).projects
      = s.projects.map (Project.sentBack us) :=
  projects_alter_map fun u d _ => Project.ofEntry?_sentBack us u d

/-- A horizon whose closure has nobody who is sent back. -/
theorem horizon_sentBack {s t : Store} {us : List Uri}
    (huris : t.uris = s.uris)
    (hprojects : t.projects = s.projects.map (Project.sentBack us))
    (builtins : List Uri) {v : Uri}
    (hv : ∀ p ∈ (Horizon.of s builtins v).closure, p ∉ us) :
    Horizon.of t builtins v = Horizon.of s builtins v := by
  unfold Horizon.of at hv ⊢
  rw [huris, hprojects, Projects.ownerOf?_map_sentBack]
  cases howner : s.projects.ownerOf? v with
  | none => rfl
  | some owner =>
    rw [howner] at hv
    simp only [Option.map_some, Project.uri_sentBack]
    rw [Projects.closure_map_sentBack hv,
      Projects.folders_map_sentBack]

end Store

end Purview

/-
What a batch of changes hands to its build. The changes are made
between two searches for documents to relink. A search asks the index
and moves nothing (`relinkFrom_grows`), and what it finds is ordinary
and not in the batch (`mem_relinkFrom`); so sending it back moves no
horizon, and the scene that the build is given is as right as the one
that the batch was given (`right_prepared`).
-/
import Purview.Proofs.Changes

namespace Purview

/-- Whether a horizon has one of some documents in it, as something
that is seen or as a project that it hangs on. -/
def Horizon.meets (h : Horizon) (changed : List Uri) : Bool :=
  h.visible.isAll || h.visible.intersects changed
    || h.closure.any (· ∈ changed)

namespace Scene

-- =========================================================== relinking

/-- Whether a search finds a document. -/
def relinks (store : Store) (changed : List Uri) (i : Index) (u : Uri)
    (d : Document) : Bool :=
  relinkable changed u d && (d.hasUnresolved || d.linksInto changed
    || (i.look store u).2.meets changed)

/-- A search that comes to a document asks about it at most, which it
does only if the document can be relinked. -/
theorem relinkFrom_cons (store : Store) (changed : List Uri) (u : Uri)
    (d : Document) (es : List (Uri × Document)) (i : Index) :
    ∃ j, (j = i ∨ j = (i.look store u).1 ∧ relinkable changed u d = true)
      ∧ relinkFrom store changed ((u, d) :: es) i
        = let r := relinkFrom store changed es j
          (r.1, if relinks store changed i u d then u :: r.2 else r.2) := by
  rw [relinkFrom]
  unfold relinks
  cases hx : relinkable changed u d with
  | false => exact ⟨i, .inl rfl, rfl⟩
  | true =>
    cases hd : d.hasUnresolved || d.linksInto changed with
    | true => exact ⟨i, .inl rfl, rfl⟩
    | false => exact ⟨(i.look store u).1, .inr ⟨rfl, rfl⟩, rfl⟩

/-- What a search has asked does not change later answers. -/
theorem relinks_look (store : Store) (changed : List Uri) (i : Index)
    (u v : Uri) (d : Document) :
    relinks store changed (i.look store v).1 u d
      = relinks store changed i u d := by
  unfold relinks
  rw [i.look_look store v u]

/-- A search only asks. -/
theorem relinkFrom_grows (store : Store) (changed : List Uri)
    (es : List (Uri × Document)) (i : Index) :
    i.Grows store (relinkFrom store changed es i).1 := by
  induction es generalizing i with
  | nil => exact .refl _ _
  | cons e es ih =>
    obtain ⟨u, d⟩ := e
    obtain ⟨j, hj, hr⟩ := relinkFrom_cons store changed u d es i
    rw [hr]
    rcases hj with rfl | ⟨rfl, -⟩
    · exact ih j
    · exact (i.grows_look store u).trans (ih _)

/-- The search finds those that it would find by themselves. -/
theorem mem_relinkFrom_iff {store : Store} {changed : List Uri}
    {es : List (Uri × Document)} {i : Index} {u : Uri} :
    u ∈ (relinkFrom store changed es i).2 ↔
      ∃ d, (u, d) ∈ es ∧ relinks store changed i u d = true := by
  induction es generalizing i with
  | nil => simp [relinkFrom]
  | cons e es ih =>
    obtain ⟨v, x⟩ := e
    obtain ⟨j, hj, hr⟩ := relinkFrom_cons store changed v x es i
    have hsame : ∀ d, relinks store changed j u d
        = relinks store changed i u d := by
      rcases hj with rfl | ⟨rfl, -⟩
      · exact fun _ => rfl
      · exact relinks_look store changed i u v
    have hrest : u ∈ (relinkFrom store changed es j).2 ↔
        ∃ d, (u, d) ∈ es ∧ relinks store changed i u d = true := by
      rw [ih]
      simp only [hsame]
    rw [hr]
    simp only [List.mem_cons, Prod.mk.injEq, or_and_right, exists_or,
      ← hrest]
    cases hx : relinks store changed i v x with
    | true =>
      rw [if_pos rfl, List.mem_cons]
      refine or_congr_left ⟨?_, ?_⟩
      · rintro rfl
        exact ⟨x, ⟨rfl, rfl⟩, hx⟩
      · rintro ⟨d, ⟨rfl, -⟩, -⟩
        rfl
    | false =>
      rw [if_neg Bool.false_ne_true]
      refine (or_iff_right ?_).symm
      rintro ⟨d, ⟨rfl, rfl⟩, h⟩
      rw [hx] at h
      cases h

/-- What a search finds. -/
theorem mem_relinkFrom {store : Store} {changed : List Uri}
    {es : List (Uri × Document)} {i : Index} {u : Uri} :
    u ∈ (relinkFrom store changed es i).2 ↔
      ∃ d, (u, d) ∈ es ∧ relinkable changed u d = true
        ∧ (d.hasUnresolved = true ∨ d.linksInto changed = true
          ∨ (i.look store u).2.meets changed = true) := by
  rw [mem_relinkFrom_iff]
  simp only [relinks, Bool.and_eq_true, Bool.or_eq_true, or_assoc]

/-- The documents to relink, in terms of the documents of a scene. -/
theorem mem_relinkCandidates {s : Scene} {changed : List Uri} {u : Uri} :
    u ∈ (s.relinkCandidates changed).2 ↔
      ∃ d, s.store.get? u = some d ∧ relinkable changed u d = true
        ∧ (d.hasUnresolved = true ∨ d.linksInto changed = true
          ∨ (s.index.look s.store u).2.meets changed = true) := by
  show u ∈ (relinkFrom s.store changed s.store.entries s.index).2 ↔ _
  simp only [mem_relinkFrom, Store.mem_entries]

theorem right_relinkCandidates {s : Scene} (h : s.Right)
    (changed : List Uri) : (s.relinkCandidates changed).1.Right :=
  Index.Right.grows h (relinkFrom_grows _ _ _ _)

-- ============================================================= batches

variable (host : Host)

/-- The changes of a batch in the order in which they are made. -/
def ordered (changes : List Change) : List Change :=
  changes.filter Change.isRemoval
    ++ changes.filter fun c => !c.isRemoval

/-- Putting changes in order loses none. -/
theorem mem_ordered {changes : List Change} {c : Change} :
    c ∈ ordered changes ↔ c ∈ changes := by
  unfold ordered
  rw [List.mem_append, List.mem_filter, List.mem_filter]
  cases c.isRemoval <;> simp

/-- The changes are made one by one in their order. -/
theorem applyAll_eq (s : Scene) (changes : List Change) :
    s.applyAll host changes
      = (ordered changes).foldl (fun s c => (s.apply host c).1) s := by
  unfold applyAll
  rw [List.partition_eq_filter_filter]
  rfl

/-- What every change of a batch keeps, the batch keeps. -/
theorem applyAll_induction {P : Scene → Prop} {s : Scene}
    {changes : List Change} (h : P s)
    (hstep : ∀ s c, c ∈ changes → P s → P (s.apply host c).1) :
    P (s.applyAll host changes) := by
  rw [applyAll_eq]
  exact List.foldlRecOn _ _ h fun s hs c hc =>
    hstep s c (mem_ordered.1 hc) hs

/-- The scene in which the changes of a batch have been made. -/
def changed (s : Scene) (changes : List Change) : Scene :=
  (s.relinkCandidates
    (Distinct.ofList (changes.map Change.uri))).1.applyAll host changes

/-- The documents that a batch relinks: those found before its changes
and those found behind them. -/
def relinked (s : Scene) (changes : List Change) : List Uri :=
  let us := Distinct.ofList (changes.map Change.uri)
  Distinct.union (s.relinkCandidates us).2
    ((s.changed host changes).relinkCandidates us).2

/-- The scene that a batch hands to its build. -/
def prepared (s : Scene) (changes : List Change) : Scene :=
  let us := Distinct.ofList (changes.map Change.uri)
  (sendBackAll host (s.relinked host changes)
    ((s.changed host changes).relinkCandidates us).1).1

/-- An update prepares the documents and builds. -/
theorem update_eq (s : Scene) (changes : List Change) :
    s.update host changes = (s.prepared host changes).build host := rfl

/-- A change makes a project of no other document, and unmakes none. -/
theorem isProject_apply (s : Scene) {c : Change} {v : Uri}
    (hv : v ≠ c.uri) :
    (s.apply host c).1.store.isProject v = s.store.isProject v := by
  unfold Store.isProject
  rw [get?_apply, if_neg hv]
  cases s.store.get? v with
  | none => rfl
  | some d =>
    simp only [Option.map_some, Option.any_some, Document.isProject]
    split
    · rw [Document.descriptor?_sentBack]
    · rfl

/-- Whether a document is a project changes only by a change to it. -/
theorem isProject_applyAll (s : Scene) {changes : List Change} {v : Uri}
    (hv : v ∉ changes.map Change.uri) :
    (s.applyAll host changes).store.isProject v = s.store.isProject v := by
  refine applyAll_induction host
    (P := fun t => t.store.isProject v = s.store.isProject v) rfl ?_
  intro t c hc h
  rw [isProject_apply host t, h]
  intro heq
  subst heq
  exact hv (List.mem_map_of_mem hc)

theorem isProject_changed (s : Scene) {changes : List Change} {v : Uri}
    (hv : v ∉ changes.map Change.uri) :
    (s.changed host changes).store.isProject v = s.store.isProject v :=
  isProject_applyAll host (s.relinkCandidates _).1 hv

/-- The documents that a batch relinks are ordinary. -/
theorem isProject_of_relinked {s : Scene} {changes : List Change}
    {u : Uri}
    (hu : u ∈ (s.relinkCandidates
      (Distinct.ofList (changes.map Change.uri))).2) :
    u ∉ changes.map Change.uri ∧ s.store.isProject u = false := by
  obtain ⟨d, hd, hrelinkable, -⟩ := mem_relinkCandidates.1 hu
  unfold relinkable at hrelinkable
  simp only [Bool.and_eq_true, decide_eq_true_eq, Bool.not_eq_true',
    Distinct.mem_ofList] at hrelinkable
  obtain ⟨⟨⟨hnot, hord⟩, -⟩, -⟩ := hrelinkable
  rw [Store.isProject_of_get? hd]
  exact ⟨hnot, hord⟩

/-- Changes leave documents in line with their texts. -/
theorem faithful_applyAll {s : Scene} (hs : s.store.Faithful)
    (changes : List Change) : (s.applyAll host changes).store.Faithful :=
  applyAll_induction host (P := fun t => t.store.Faithful) hs
    fun _ c _ h => faithful_apply host h c

theorem right_applyAll {s : Scene} (h : s.Right)
    (changes : List Change) : (s.applyAll host changes).Right :=
  applyAll_induction host h fun _ c _ h => right_apply host h c

theorem faithful_sendBackAll {s : Scene} (hs : s.store.Faithful)
    (us : List Uri) : (sendBackAll host us s).1.store.Faithful := by
  intro v d hd
  rw [store_sendBackAll, Store.get?_alter] at hd
  obtain ⟨x, hx, rfl⟩ := Option.map_eq_some_iff.1 hd
  split
  · exact Document.faithful_sentBack (hs v x hx)
  · exact hs v x hx

/-- Sending ordinary documents back moves no horizon. -/
theorem sameLayout_sendBackAll {s : Scene} {us : List Uri}
    (hus : ∀ u ∈ us, s.store.isProject u = false) :
    Store.SameLayout (sendBackAll host us s).1.store s.store := by
  rw [store_sendBackAll]
  refine Store.sameLayout_alter fun u d hd => ?_
  split
  · next hu =>
    have hord : d.descriptor? = none := by
      have h := hus u hu
      rw [Store.isProject_of_get? hd] at h
      simpa [Document.isProject] using h
    rw [Project.ofEntry?_eq_none.2 (d.descriptor?_sentBack.trans hord),
      Project.ofEntry?_eq_none.2 hord]
  · rfl

/-- Behind the changes, those that are to be relinked go back. -/
theorem store_prepared (s : Scene) (changes : List Change) :
    (s.prepared host changes).store
      = (s.changed host changes).store.alter fun v d =>
        if v ∈ s.relinked host changes then d.sentBack else d :=
  store_sendBackAll host _ _

theorem index_prepared (s : Scene) (changes : List Change) :
    (s.prepared host changes).index
      = ((s.changed host changes).relinkCandidates
        (Distinct.ofList (changes.map Change.uri))).1.index :=
  index_sendBackAll host _ _

/-- The documents that a batch relinks are ordinary, and it does not
name them. -/
theorem isProject_of_mem_relinked {s : Scene} {changes : List Change}
    {u : Uri} (hu : u ∈ s.relinked host changes) :
    u ∉ changes.map Change.uri
    ∧ (s.changed host changes).store.isProject u = false := by
  rcases Distinct.mem_union.1 hu with hu | hu
  · obtain ⟨hnot, hord⟩ := isProject_of_relinked hu
    exact ⟨hnot, (s.isProject_changed host hnot).trans hord⟩
  · exact isProject_of_relinked hu

/-- The documents that a build starts from are in line with their
texts. -/
theorem faithful_prepared {s : Scene} (hs : s.store.Faithful)
    (changes : List Change) : (s.prepared host changes).store.Faithful := by
  refine faithful_sendBackAll host ?_ _
  exact faithful_applyAll host
    (s := (s.relinkCandidates _).1) hs changes

theorem right_changed {s : Scene} (h : s.Right)
    (changes : List Change) : (s.changed host changes).Right :=
  right_applyAll host (right_relinkCandidates h _) changes

/-- Relinking moves no horizon. -/
theorem sameLayout_prepared (s : Scene) (changes : List Change) :
    Store.SameLayout (s.prepared host changes).store
      (s.changed host changes).store :=
  sameLayout_sendBackAll host fun _ hu =>
    (isProject_of_mem_relinked host hu).2

/-- The scene that a build is given is as right as the one that the
batch was given. -/
theorem right_prepared {s : Scene} (h : s.Right)
    (changes : List Change) : (s.prepared host changes).Right := by
  have hsecond := right_relinkCandidates (right_changed host h changes)
    (Distinct.ofList (changes.map Change.uri))
  unfold Right
  rw [index_prepared]
  exact Index.Right.layout hsecond (s.sameLayout_prepared host changes).symm

-- ================================================ what a batch leaves

/-- A batch leaves an ordinary document alone that it does not name. -/
theorem get?_changed {s : Scene} {changes : List Change} {v : Uri}
    (hv : v ∉ changes.map Change.uri)
    (hord : s.store.isProject v = false) :
    (s.changed host changes).store.get? v = s.store.get? v := by
  refine applyAll_induction host
    (P := fun t => t.store.get? v = s.store.get? v) rfl ?_
  intro t c hc h
  have hne : v ≠ c.uri := by
    intro heq
    subst heq
    exact hv (List.mem_map_of_mem hc)
  have hnot : v ∉ t.store.recalled c := by
    intro hmem
    have hproject := Store.isProject_of_mem_recalled hne hmem
    unfold Store.isProject at hproject hord
    rw [h, hord] at hproject
    cases hproject
  rw [get?_apply, if_neg hne, ← h]
  simp [hnot]

end Scene

end Purview

/-
Where links lead. A document at `linked` or above has its references
looked up in the names that others offered at the time, and what it
found stays until it is linked again; so whoever takes a name away has
to see to it that nobody is left linked to it.

Names are taken away in one place only. A build never does it
(`Touch.offered`): it adds names when it indexes a document, and the
only documents whose content it replaces are `changed` and offer
nothing. That holds at every single touch, so it does not matter where
a build is cut short or which of its steps fail. What takes names away
is a batch of changes, from the documents that it names; and it finds
everybody who is linked into one of these before it makes a change, and
sends them back (`anchored_prepared`). So no run of updates leaves a
link that leads nowhere (`updates_anchored`).
-/
import Purview.Proofs.Arrival

namespace Purview

-- ================================================================ names

namespace Content

@[simp] theorem names_unlink (c : Content) : c.unlink.names = c.names := by
  cases c <;> rfl

end Content

namespace Document

/-- A document that offers the names it holds, from the time they are
known on, and within which no others resolve. -/
structure Named (d : Document) : Prop where
  known : d.content.isSome
  offered : d.offered = if Stage.indexed ≤ d.stage then d.listed else none
  own : d.own = none ∨ Stage.indexed ≤ d.stage ∧ d.own = d.listed

variable {d : Document}

theorem named_read (text : String) : (read text).Named :=
  ⟨rfl, rfl, .inl rfl⟩

theorem named_fresh (d : Document) : d.fresh.Named := ⟨rfl, rfl, .inl rfl⟩

@[simp] theorem listed_unlink (d : Document) :
    d.unlink.listed = d.listed := by
  unfold listed unlink
  cases d.content with
  | none => rfl
  | some c => exact congrArg (some ∘ Distinct.ofList) c.names_unlink

namespace Named

/-- What a document that offers names is like. -/
theorem of_offered (h : d.Named) {names : List String}
    (hnames : d.offered = some names) :
    Stage.indexed ≤ d.stage ∧ d.listed = some names := by
  have hoffered := h.offered
  split at hoffered
  · next hstage => exact ⟨hstage, hoffered.symm.trans hnames⟩
  · rw [hnames] at hoffered
    cases hoffered

/-- What resolves within a document is offered by it. -/
theorem offered_of_own (h : d.Named) {names : List String}
    (hown : d.own = some names) : d.offered = some names := by
  rcases h.own with hnone | ⟨hstage, hsome⟩
  · rw [hown] at hnone
    cases hnone
  · rw [h.offered, if_pos hstage, ← hsome, hown]

theorem unlink (h : d.Named) : d.unlink.Named := by
  refine ⟨?_, ?_, ?_⟩
  · show (d.content.map Content.unlink).isSome
    rw [Option.isSome_map]
    exact h.known
  · rw [listed_unlink]
    exact h.offered
  · rw [listed_unlink]
    exact h.own

theorem demote (h : d.Named) (target : Stage) : (d.demote target).Named := by
  unfold Document.demote
  split
  · next hlt =>
    refine ⟨h.known, ?_, ?_⟩
    · show (if target < .indexed then none else d.offered) = _
      split
      · next hbelow =>
        exact (if_neg (Nat.not_le.2 hbelow)).symm
      · next hbelow =>
        have hle : Stage.indexed ≤ target := Nat.not_lt.1 hbelow
        have hstage : Stage.indexed ≤ d.stage :=
          Nat.le_trans hle (Nat.le_of_lt hlt)
        rw [h.offered, if_pos hstage]
        exact (if_pos hle).symm
    · show (if target < .surveyed then none else d.own) = none ∨ _
      split
      · exact .inl rfl
      · next hbelow =>
        have hle : Stage.indexed ≤ target :=
          Nat.le_trans (by decide) (Nat.not_lt.1 hbelow)
        exact h.own.imp_right fun hown => ⟨hle, hown.2⟩
  · exact h

theorem sentBack (h : d.Named) : d.sentBack.Named := by
  unfold Document.sentBack
  split
  · exact h.unlink.demote .surveyed
  · exact h

theorem outdated (h : d.Named) : d.outdated.Named :=
  h.unlink.demote .changed

theorem setText (h : d.Named) (text : String) : (d.setText text).Named :=
  ⟨h.known, h.offered, h.own⟩

end Named

/-- Sending a document back takes no name away from others. -/
theorem offered_sentBack (d : Document) : d.sentBack.offered = d.offered := by
  unfold sentBack
  split
  · unfold demote
    split <;> rfl
  · rfl

-- =============================================================== phases

/-- Whatever the end of a phase leaves standing, with the work done,
undone, or done and not counted. -/
theorem ended_induction {P : Document → Prop} {phase : Phase}
    {attempt : Attempt Document}
    (hreport : ∀ x diagnostic, P x → P (x.report diagnostic)) (hd : P d)
    (hdone : ∀ x, attempt.result? = some x → P (x.advance phase.goal))
    (hlost : phase ≠ .index → ∀ x, attempt.result? = some x → P x) :
    P (d.ended phase attempt) := by
  cases attempt with
  | succeeded x => exact hdone x rfl
  | failedBefore error => exact hreport d _ hd
  | failedAfter x error =>
    show P ((if phase = .index then d else x).report _)
    split
    · exact hreport d _ hd
    · next hphase => exact hreport x _ (hlost hphase x rfl)

/-- What the work of a phase makes of a document, diagnostics apart. -/
structure Worked (phase : Phase) (u : Uri) (scope : LinkScope)
    (d x : Document) : Prop where
  stage : x.stage = d.stage
  known : x.content.isSome
  listed : x.listed = d.listed
  offered : x.offered = if phase = .index then d.listed else d.offered
  own : x.own = if phase = .scope then d.listed else d.own
  content : x.content = d.content ∧ (phase = .link → d.body? = none)
    ∨ phase = .link ∧ ∃ own b, d.own = some own ∧ d.body? = some b
      ∧ x.body? = some (linkBody u own scope b)

theorem worked_of_work {phase : Phase} {u : Uri} {scope : LinkScope}
    {x : Document} (h : phase.work u scope d = .ok x) :
    d.Worked phase u scope x := by
  obtain ⟨hlack, rfl⟩ := Phase.work_eq_ok h
  obtain ⟨hcontent, hown⟩ := Phase.lack?_eq_none_iff.1 hlack
  obtain ⟨c, hc⟩ := Option.isSome_iff_exists.1 hcontent
  have hdone : (phase.done u scope d).content
      = some (phase.turn u d.own scope c) := by
    show d.content.map _ = _
    rw [hc, Option.map_some]
  refine ⟨rfl, by rw [hdone]; rfl, ?_, rfl, rfl, ?_⟩
  · unfold listed
    rw [hdone, hc, Option.map_some, Option.map_some, Phase.names_turn]
  · unfold body?
    rw [hdone, hc]
    by_cases hphase : phase = .link
    · obtain ⟨own, hown⟩ := Option.isSome_iff_exists.1 (hown hphase)
      rw [Phase.turn, if_pos hphase, hown]
      cases c with
      | descriptor y => exact .inl ⟨rfl, fun _ => rfl⟩
      | ordinary b => exact .inr ⟨hphase, own, b, rfl, rfl, rfl⟩
    · rw [Phase.turn, if_neg hphase]
      exact .inl ⟨rfl, fun h => absurd h hphase⟩

/-- Who stands where a phase starts gets where it goes. -/
theorem advance_goal {phase : Phase} {x : Document}
    (h : x.stage = phase.base) :
    x.advance phase.goal = { x with stage := phase.goal } := by
  unfold advance
  rw [if_pos]
  rw [h]
  cases phase <;> decide

/-- Work keeps the names in order, whether it is counted or not; only
the names that indexing finds have to be. -/
theorem Named.work (h : d.Named) {phase : Phase} {u : Uri}
    {scope : LinkScope} {x : Document} (hbase : d.stage = phase.base)
    (hwork : d.Worked phase u scope x) :
    (x.advance phase.goal).Named ∧ (phase ≠ .index → x.Named) := by
  have hstage : x.stage = phase.base := hwork.stage.trans hbase
  have hreached : Stage.indexed ≤ phase.goal := by cases phase <;> decide
  rw [advance_goal hstage]
  by_cases hphase : phase = .index
  · -- Nothing resolves within a document that has only been read.
    subst hphase
    have hown : d.own = none := by
      refine h.own.resolve_right fun hcase => ?_
      rw [hbase] at hcase
      exact absurd hcase.1 (by decide)
    refine ⟨⟨hwork.known, ?_, .inl (hwork.own.trans hown)⟩,
      fun hne => absurd rfl hne⟩
    exact hwork.offered.trans hwork.listed.symm
  · have hstart : Stage.indexed ≤ phase.base := by
      cases phase <;> first | decide | exact absurd rfl hphase
    have hoffered : x.offered = x.listed := by
      rw [hwork.offered, if_neg hphase, hwork.listed, h.offered, hbase,
        if_pos hstart]
    have hown : x.own = none ∨ x.own = x.listed := by
      rw [hwork.own, hwork.listed]
      split
      · exact .inr rfl
      · exact h.own.imp_right And.right
    refine ⟨⟨hwork.known, ?_, hown.imp_right fun hown => ⟨hreached, hown⟩⟩,
      fun _ => ⟨hwork.known, ?_, hown.imp_right fun hown => ⟨?_, hown⟩⟩⟩
    · exact hoffered.trans (if_pos hreached).symm
    · rw [hoffered, hstage, if_pos hstart]
    · rw [hstage]
      exact hstart

end Document

-- ============================================================== touches

namespace Store

/-- Whether a document offers a name. -/
def Offers (s : Store) (t : Uri) (name : String) : Prop :=
  ∃ x names, s.get? t = some x ∧ x.offered = some names ∧ name ∈ names

variable {host : Host} {s : Store} {u : Uri} {d d' : Document}

/-- No touch brings names out of order. -/
theorem Touch.named (h : s.Touch host u d d') (hd : d.Named) :
    d'.Named := by
  cases h with
  | renewed h =>
    cases h with
    | cleared => exact ⟨hd.known, hd.offered, hd.own⟩
    | read hstage =>
      rw [Document.reread_of_changed hstage]
      exact d.named_fresh
  | ended phase i hbase =>
    refine Document.ended_induction
      (fun x _ hx => ⟨hx.known, hx.offered, hx.own⟩) hd ?_ ?_
    · intro x hx
      exact (hd.work hbase (Document.worked_of_work
        (Scene.result?_attempt host hx))).1
    · intro hphase x hx
      exact (hd.work hbase (Document.worked_of_work
        (Scene.result?_attempt host hx))).2 hphase

/-- No touch takes a name away. -/
theorem Touch.offered (h : s.Touch host u d d') (hd : d.Named)
    {names : List String} (hnames : d.offered = some names) :
    d'.offered = some names := by
  have hstage := (hd.of_offered hnames).1
  cases h with
  | renewed h =>
    cases h with
    | cleared => exact hnames
    | read hchanged =>
      rw [hchanged] at hstage
      exact absurd hstage (by decide)
  | ended phase i hbase =>
    have hphase : phase ≠ .index := by
      rintro rfl
      rw [hbase] at hstage
      exact absurd hstage (by decide)
    have hwork : ∀ x, (host.attempt phase.step u (phase.work u
        (phase.handed i s u) d)).result? = some x →
        x.offered = some names ∧ x.stage = phase.base := by
      intro x hx
      have hworked := Document.worked_of_work
        (Scene.result?_attempt host hx)
      refine ⟨?_, hworked.stage.trans hbase⟩
      rw [hworked.offered, if_neg hphase]
      exact hnames
    refine Document.ended_induction
      (P := fun x => x.offered = some names) (fun _ _ hx => hx) hnames ?_ ?_
    · intro x hx
      rw [Document.advance_goal (hwork x hx).2]
      exact (hwork x hx).1
    · exact fun _ x hx => (hwork x hx).1

end Store

/-- Once a document has been linked, what its references lead to is as
given. -/
def Document.Led (d : Document) (leads : Uri → String → Prop) : Prop :=
  Stage.linked ≤ d.stage → ∀ b, d.body? = some b → ∀ r ∈ b.references,
    ∀ t, r.target = some t → leads t r.name

theorem Document.Led.mono {d : Document} {p q : Uri → String → Prop}
    (h : d.Led p) (hpq : ∀ t name, p t name → q t name) : d.Led q :=
  fun hstage b hb r hr t ht => hpq t r.name (h hstage b hb r hr t ht)

/-- A document with a body describes no project. -/
theorem Document.isProject_of_body? {d : Document} {b : Body}
    (h : d.body? = some b) : d.isProject = false := by
  obtain ⟨c, hc, hb⟩ := Option.bind_eq_some_iff.1 h
  unfold isProject descriptor?
  rw [hc]
  cases c with
  | descriptor x => cases hb
  | ordinary b => rfl

/-- Who has not been linked leads nowhere. -/
theorem Document.led_of_lt {d : Document} (h : d.stage < .linked)
    (leads : Uri → String → Prop) : d.Led leads :=
  fun hstage => absurd hstage (Nat.not_le.2 h)

namespace Store

variable {host : Host} {s t : Store} {u : Uri} {d d' : Document}

/-- What is found in a scope is offered. -/
theorem offers_of_resolve {i : Index} {v : Uri} {name : String}
    (h : (i.linkScope s u).2.resolve name = some v) : s.Offers v name := by
  unfold LinkScope.resolve at h
  obtain ⟨o, ho, rfl⟩ := Option.map_eq_some_iff.1 h
  have hmem := List.mem_of_find?_eq_some ho
  have hname : name ∈ o.2 := by simpa using List.find?_some ho
  unfold Index.linkScope at hmem
  split at hmem
  · exact absurd hmem List.not_mem_nil
  · split at hmem
    · exact absurd hmem List.not_mem_nil
    · obtain ⟨w, -, hw⟩ := List.mem_filterMap.1 hmem
      obtain ⟨names, hnames, rfl⟩ := Option.map_eq_some_iff.1 hw
      obtain ⟨x, hx, hoffered⟩ := Option.bind_eq_some_iff.1 hnames
      exact ⟨x, names, hx, hoffered, hname⟩

/-- Linking leads to the document itself, which offers its own names, or
to what is found in its scope. -/
theorem led_linked {i : Index} {x : Document} (hd : s.get? u = some d)
    (hnamed : d.Named) {own : List String} {b : Body}
    (hown : d.own = some own)
    (hb : x.body? = some (Document.linkBody u own (i.linkScope s u).2 b)) :
    x.Led s.Offers := by
  intro _ b' hb' r hr v hv
  obtain rfl : Document.linkBody u own _ b = b' :=
    Option.some.inj (hb.symm.trans hb')
  obtain ⟨r, -, rfl⟩ := List.mem_map.1 hr
  have hv : (if r.name ∈ own then some u
    else (i.linkScope s u).2.resolve r.name) = some v := hv
  split at hv
  · next hname =>
    cases hv
    exact ⟨d, own, hd, hnamed.offered_of_own hown, hname⟩
  · exact offers_of_resolve hv

/-- Who is linked by a touch is linked to what is offered. -/
theorem Touch.led (h : s.Touch host u d d') (hd : s.get? u = some d)
    (hnamed : d.Named) (hled : d.Led s.Offers) : d'.Led s.Offers := by
  cases h with
  | renewed h =>
    cases h with
    | cleared => exact hled
    | read _ =>
      refine Document.led_of_lt ?_ _
      rw [Document.stage_reread]
      split
      · decide
      · contradiction
  | ended phase i hbase =>
    refine Document.ended_induction (P := (·.Led s.Offers))
      (fun _ _ hx => hx) hled ?_ ?_
    · intro x hx
      have hwork := Document.worked_of_work (Scene.result?_attempt host hx)
      rw [Document.advance_goal (hwork.stage.trans hbase)]
      rcases hwork.content with ⟨hsame, hlink⟩ | ⟨rfl, own, b, hown, -, hb⟩
      · have hbody : x.body? = d.body? := by
          unfold Document.body?
          rw [hsame]
        intro hstage b hb
        have hheld : d.body? = some b := hbody.symm.trans hb
        have hgoal : Stage.linked ≤ phase.goal := hstage
        refine hled ?_ b hheld
        rw [hbase]
        cases phase with
        | index => exact absurd hgoal (by decide)
        | scope => exact absurd hgoal (by decide)
        | link =>
          rw [hlink rfl] at hheld
          cases hheld
        | validate => decide
      · exact led_linked hd hnamed hown hb
    · -- What a step did that failed behind its work is kept, but the
      -- document has not come as far as its goal.
      intro _ x hx hstage
      have hwork := Document.worked_of_work (Scene.result?_attempt host hx)
      rw [hwork.stage, hbase] at hstage
      rcases hwork.content with ⟨hsame, -⟩ | ⟨rfl, -⟩
      · have hbody : x.body? = d.body? := by
          unfold Document.body?
          rw [hsame]
        rw [hbody]
        exact hled (hbase ▸ hstage)
      · exact absurd hstage (by decide)

/-- Names are in order everywhere, and whatever the documents that are
no builtins are linked to offers the name. -/
structure Anchored (s : Store) : Prop where
  named : ∀ u d, s.get? u = some d → d.Named
  led : ∀ u d, s.get? u = some d → d.builtin = false → d.Led s.Offers

theorem Anchored.touched (h : s.Anchored) (ht : Touched host s t) :
    t.Anchored := by
  obtain ⟨u, d, d', hd, htouch, rfl⟩ := ht
  have hget := get?_modify_const hd d'
  have hoffers : ∀ v name, s.Offers v name →
      (s.modify u fun _ => d').Offers v name := by
    rintro v name ⟨x, names, hx, hnames, hname⟩
    by_cases hv : v = u
    · subst hv
      obtain rfl : d = x := Option.some.inj (hd.symm.trans hx)
      refine ⟨d', names, by rw [hget, if_pos rfl], ?_, hname⟩
      exact htouch.offered (h.named v d hd) hnames
    · exact ⟨x, names, by rw [hget, if_neg hv, hx], hnames, hname⟩
  constructor
  · intro v x hx
    rw [hget] at hx
    split at hx
    · cases hx
      exact htouch.named (h.named u d hd)
    · exact h.named v x hx
  · intro v x hx hb
    rw [hget] at hx
    split at hx
    · cases hx
      refine (htouch.led hd (h.named u d hd) ?_).mono hoffers
      exact h.led u d hd (htouch.alike.builtin.symm.trans hb)
    · exact (h.led v x hx hb).mono hoffers

theorem Anchored.touches (h : s.Anchored) (ht : Touches host s t) :
    t.Anchored := by
  induction ht with
  | refl => exact h
  | tail _ htouch ih => exact ih.touched htouch

end Store

-- ============================================================== batches

/-- Who has been sent back is not linked. -/
theorem Document.not_linked_sentBack (d : Document) :
    d.sentBack.stage < .linked :=
  Nat.lt_of_le_of_lt d.stage_sentBack_le (by decide)

/-- Where a document was or was not, with the other one in its place or
sent back. -/
def Document.Spared (d d' : Option Document) : Prop :=
  d' = d ∨ d' = d.map Document.sentBack

theorem Document.Spared.trans {a b c : Option Document}
    (h : Spared a b) (h' : Spared b c) : Spared a c := by
  rcases h with rfl | rfl
  · exact h'
  · rcases h' with rfl | rfl
    · exact .inr rfl
    · refine .inr ?_
      rw [Option.map_map]
      exact Option.map_congr fun d _ => d.sentBack_sentBack

/-- A document that has been spared and is linked is the one it was. -/
theorem Document.Spared.eq_of_linked {d : Option Document} {x : Document}
    (h : Spared d (some x)) (hx : Stage.linked ≤ x.stage) : d = some x := by
  rcases h with h | h
  · exact h.symm
  · obtain ⟨y, -, rfl⟩ := Option.map_eq_some_iff.1 h.symm
    exact absurd y.not_linked_sentBack (Nat.not_lt.2 hx)

/-- What has been spared offers what it did. -/
theorem Document.Spared.offered {x : Document} {d' : Option Document}
    (h : Spared (some x) d') :
    ∃ y, d' = some y ∧ y.offered = x.offered := by
  rcases h with rfl | rfl
  · exact ⟨x, rfl, rfl⟩
  · exact ⟨x.sentBack, rfl, x.offered_sentBack⟩

namespace Scene

variable (host : Host)

/-- A change spares the documents that it does not name. -/
theorem spared_apply (s : Scene) {c : Change} {v : Uri}
    (hv : v ≠ c.uri) :
    Document.Spared (s.store.get? v) ((s.apply host c).1.store.get? v) := by
  rw [get?_apply, if_neg hv]
  by_cases hr : v ∈ s.store.recalled c
  · exact .inr (by simp only [hr, if_true])
  · exact .inl (by simp [hr])

/-- What a change gives a document that is no builtin is not linked. -/
theorem stage_apply (s : Scene) {c : Change} {d : Document}
    (hd : (s.apply host c).1.store.get? c.uri = some d)
    (hb : d.builtin = false) : d.stage < .linked := by
  rw [get?_apply, if_pos rfl] at hd
  cases hx : s.store.get? c.uri with
  | none =>
    rw [Store.revised_of_none hx] at hd
    obtain ⟨text, -, rfl⟩ := Option.map_eq_some_iff.1 hd
    show Stage.parsed < .linked
    decide
  | some x =>
    cases hbuiltin : x.builtin with
    | true =>
      rw [Store.revised_of_builtin hx hbuiltin] at hd
      cases hd
      rw [hb] at hbuiltin
      cases hbuiltin
    | false =>
      rw [Store.revised_of_loaded hx hbuiltin] at hd
      obtain ⟨text, -, rfl⟩ := Option.map_eq_some_iff.1 hd
      show x.outdated.stage < _
      rw [Document.stage_outdated]
      decide

/-- Changes made one after another spare the documents that none of
them names. -/
theorem spared_foldl (changes : List Change) (s : Scene) {v : Uri}
    (hv : v ∉ changes.map Change.uri) :
    Document.Spared (s.store.get? v)
      ((changes.foldl (fun s c => (s.apply host c).1) s).store.get? v) := by
  induction changes generalizing s with
  | nil => exact .inl rfl
  | cons c changes ih =>
    obtain ⟨hhead, htail⟩ := List.ne_and_not_mem_of_not_mem_cons hv
    exact (spared_apply host s hhead).trans (ih _ htail)

/-- Of the documents that changes name, none but the builtins are linked
afterwards. -/
theorem stage_foldl (changes : List Change) (s : Scene) {v : Uri}
    (hv : v ∈ changes.map Change.uri) {d : Document}
    (hd : (changes.foldl (fun s c => (s.apply host c).1) s).store.get? v
      = some d) (hb : d.builtin = false) : d.stage < .linked := by
  induction changes generalizing s with
  | nil => exact absurd hv List.not_mem_nil
  | cons c changes ih =>
    by_cases hlater : v ∈ changes.map Change.uri
    · exact ih _ hlater hd
    · -- The last change to the document has been made.
      obtain rfl : v = c.uri :=
        (List.mem_cons.1 hv).resolve_right hlater
      refine Nat.not_le.1 fun hlinked => ?_
      have hspared := spared_foldl host changes (s.apply host c).1
        hlater
      rw [List.foldl_cons] at hd
      rw [hd] at hspared
      exact absurd (stage_apply host s (hspared.eq_of_linked hlinked) hb)
        (Nat.not_lt.2 hlinked)

theorem lasting_named : Lasting fun _ => Document.Named where
  read _ := Document.named_read
  sentBack := Document.Named.sentBack
  outdated := Document.Named.outdated
  setText text h _ := h.setText text

theorem named_apply {s : Scene}
    (h : ∀ v d, s.store.get? v = some d → d.Named) (c : Change) :
    ∀ v d, (s.apply host c).1.store.get? v = some d → d.Named :=
  lasting_apply host lasting_named h c

/-- A batch sends back whoever is linked to a document that it names. -/
theorem mem_relinked_of_linksInto {s : Scene} {changes : List Change}
    {u : Uri} {d : Document} (hd : s.store.get? u = some d)
    (hu : u ∉ changes.map Change.uri) (hb : d.builtin = false)
    (hstage : Stage.linked ≤ d.stage) {b : Body} (hbody : d.body? = some b)
    {r : Reference} (hr : r ∈ b.references) {t : Uri}
    (ht : r.target = some t) (htarget : t ∈ changes.map Change.uri) :
    u ∈ s.relinked host changes := by
  have hord : d.isProject = false := Document.isProject_of_body? hbody
  have hlinks : d.linksInto (Distinct.ofList (changes.map Change.uri))
      = true := by
    unfold Document.linksInto
    rw [hbody]
    refine List.any_eq_true.2 ⟨r, hr, ?_⟩
    rw [ht]
    exact decide_eq_true (Distinct.mem_ofList.2 htarget)
  have hrelinkable : relinkable (Distinct.ofList (changes.map Change.uri))
      u d = true := by
    have hlinked : Stage.surveyed < d.stage :=
      Nat.lt_of_lt_of_le (by decide) hstage
    simp [relinkable, Distinct.mem_ofList, hu, hord, hb, hlinked]
  exact Distinct.mem_union.2 (.inl (mem_relinkCandidates.2
    ⟨d, hd, hrelinkable, .inr (.inl hlinks)⟩))

theorem get?_prepared (s : Scene) (changes : List Change) (v : Uri) :
    (s.prepared host changes).store.get? v
      = ((s.changed host changes).store.get? v).map fun d =>
        if v ∈ s.relinked host changes then d.sentBack else d := by
  rw [store_prepared, Store.get?_alter]

/-- What a batch does behind its changes spares all documents. -/
theorem spared_relinked (s : Scene) (changes : List Change) (v : Uri) :
    Document.Spared ((s.changed host changes).store.get? v)
      ((s.prepared host changes).store.get? v) := by
  rw [get?_prepared]
  by_cases hv : v ∈ s.relinked host changes
  · exact .inr (by simp only [hv, if_true])
  · exact .inl (by simp [hv])

/-- A batch spares the documents that it does not name. -/
theorem spared_prepared (s : Scene) {changes : List Change} {v : Uri}
    (hv : v ∉ changes.map Change.uri) :
    Document.Spared (s.store.get? v)
      ((s.prepared host changes).store.get? v) := by
  refine Document.Spared.trans ?_ (s.spared_relinked host changes v)
  unfold changed
  rw [applyAll_eq]
  refine spared_foldl host (ordered changes) (s.relinkCandidates _).1
    fun hmem => hv ?_
  exact ((ordered_perm changes).map Change.uri).mem_iff.1 hmem

/-- A batch leaves no link to a document that it may have taken a name
from. -/
theorem anchored_prepared {s : Scene} (h : s.store.Anchored)
    (changes : List Change) : (s.prepared host changes).store.Anchored := by
  have hsent := s.spared_relinked host changes
  -- The search for documents to relink comes first and changes none.
  let before := (s.relinkCandidates
    (Distinct.ofList (changes.map Change.uri))).1
  have hchanged : s.changed host changes
      = (ordered changes).foldl (fun s c => (s.apply host c).1) before :=
    applyAll_eq host before changes
  have hordered : ∀ v, v ∈ (ordered changes).map Change.uri
      ↔ v ∈ changes.map Change.uri :=
    fun v => ((ordered_perm changes).map Change.uri).mem_iff
  constructor
  · intro v d hd
    rw [get?_prepared] at hd
    obtain ⟨x, hx, rfl⟩ := Option.map_eq_some_iff.1 hd
    have hnamed : x.Named := by
      refine applyAll_induction host (s := before)
        (P := fun s => ∀ v d, s.store.get? v = some d → d.Named)
        h.named (fun t c _ ht => named_apply host ht c) v x hx
    split
    · exact hnamed.sentBack
    · exact hnamed
  · intro v d hd hb hlinked b hbody r hr t ht
    have hlast : (s.changed host changes).store.get? v = some d :=
      Document.Spared.eq_of_linked (hd ▸ hsent v) hlinked
    have hv : v ∉ changes.map Change.uri := by
      intro hv
      rw [hchanged] at hlast
      exact absurd (stage_foldl host (ordered changes) before
        ((hordered v).2 hv) hlast hb) (Nat.not_lt.2 hlinked)
    have hsame : s.store.get? v = some d :=
      Document.Spared.eq_of_linked (hd ▸ s.spared_prepared host hv) hlinked
    obtain ⟨x, names, hx, hnames, hname⟩ :=
      h.led v d hsame hb hlinked b hbody r hr t ht
    have htarget : t ∉ changes.map Change.uri := by
      intro htarget
      have hmem := mem_relinked_of_linksInto host hsame hv hb hlinked
        hbody hr ht htarget
      rw [get?_prepared, hlast, Option.map_some, if_pos hmem] at hd
      rw [← Option.some.inj hd] at hlinked
      exact absurd d.not_linked_sentBack (Nat.not_lt.2 hlinked)
    obtain ⟨y, hy, hoffered⟩ :=
      Document.Spared.offered (hx ▸ s.spared_prepared host htarget)
    exact ⟨y, names, hy, hoffered.trans hnames, hname⟩

/-- What an update leaves standing, whatever its host does. -/
theorem anchored_update {s : Scene} (hs : s.store.Faithful)
    (h : s.store.Anchored) (changes : List Change) :
    (s.update host changes).1.store.Anchored := by
  rw [update_eq]
  exact (anchored_prepared host h changes).touches
    (touches_build host (faithful_prepared host hs changes))

end Scene

-- ================================================================= runs

namespace Store

/-- Every link of a document that is no builtin leads to a loaded
document that has been indexed and offers the name. -/
def LinksHold (s : Store) : Prop :=
  ∀ u d b, s.get? u = some d → d.builtin = false →
    Stage.linked ≤ d.stage → d.body? = some b →
    ∀ r ∈ b.references, ∀ t, r.target = some t →
      ∃ x names, s.get? t = some x ∧ Stage.indexed ≤ x.stage
        ∧ x.offered = some names ∧ r.name ∈ names

theorem Anchored.linksHold {s : Store} (h : s.Anchored) :
    s.LinksHold := by
  intro u d b hd hb hstage hbody r hr t ht
  obtain ⟨x, names, hx, hnames, hname⟩ :=
    h.led u d hd hb hstage b hbody r hr t ht
  exact ⟨x, names, hx, ((h.named t x hx).of_offered hnames).1, hnames, hname⟩

/-- Documents that have been read and no more are linked to nothing. -/
theorem anchored_of_fresh {s : Store}
    (h : ∀ u d, s.get? u = some d → d = d.fresh) : s.Anchored := by
  refine ⟨fun u d hd => ?_, fun u d hd _ => Document.led_of_lt ?_ _⟩
  · rw [h u d hd]
    exact d.named_fresh
  · rw [h u d hd, Document.stage_fresh]
    decide

end Store

namespace Workspace

/-- Updates, each with the host it is made under and whether it has been
withdrawn before. -/
def batches (bs : List (Host × Bool × List Change)) : List Request :=
  bs.map fun b => ⟨b.1, b.2.1, .update b.2.2⟩

/-- What a workspace loads at first has been read and no more. -/
theorem fresh_create (host : Host) (builtins : List SourceFile) :
    ∀ u d, (create host builtins).store.get? u = some d → d = d.fresh :=
  documents_create host builtins (P := fun _ d => d = d.fresh)
    fun _ _ => rfl

theorem fresh_loaded {w : Workspace} (host : Host)
    (files : List SourceFile)
    (h : ∀ u d, w.store.get? u = some d → d = d.fresh) :
    ∀ u d, (w.loaded host files).store.get? u = some d → d = d.fresh :=
  documents_loaded host files (P := fun _ d => d = d.fresh)
    (fun _ _ => rfl) h

/-- A start, with the changes kept back following as one batch. -/
theorem anchored_start {w : Workspace} (hw : w.store.Faithful)
    (hclosed : w.gate.isOpen = false)
    (h : ∀ u d, w.store.get? u = some d → d = d.fresh)
    (host : Host) (files : List SourceFile) :
    (w.start host files).1.store.Faithful
      ∧ (w.start host files).1.store.Anchored := by
  have hloaded := faithful_loaded hw host files
  have hfirst : (w.loaded host files).store.Anchored :=
    Store.anchored_of_fresh (fresh_loaded host files h)
  have hbuilt := Scene.build_faithful host hloaded
  have hanchored := hfirst.touches (Scene.touches_build host hloaded)
  cases hqueue : w.gate.queue.isEmpty with
  | true =>
    rw [start_of_closed host files hclosed, hqueue]
    exact ⟨hbuilt, hanchored⟩
  | false =>
    have hlater := Scene.anchored_update host hbuilt hanchored w.gate.queue
    rw [Scene.update_eq] at hlater
    rw [store, scene_start host files hclosed hqueue]
    exact ⟨Scene.build_faithful host
      (Scene.faithful_prepared host hbuilt w.gate.queue), hlater⟩

/-- Updates keep every link. -/
theorem anchored_batches {w : Workspace} (hw : w.store.Faithful)
    (h : w.store.Anchored) (bs : List (Host × Bool × List Change)) :
    (w.run (batches bs)).store.Anchored := by
  induction bs generalizing w with
  | nil => exact h
  | cons b bs ih =>
    obtain ⟨host, withdrawn, changes⟩ := b
    have hserve := scene_serve_update (w := w) host withdrawn changes
    have hbegun : (w.begin withdrawn).scene.store.Faithful := hw
    have hanchored : (w.begin withdrawn).scene.store.Anchored := h
    have hprepared := Scene.faithful_prepared host hbegun changes
    have hrun : w.run (batches (⟨host, withdrawn, changes⟩ :: bs))
        = (w.serve ⟨host, withdrawn, .update changes⟩).run
          (batches bs) := by
      unfold run batches
      rw [List.map_cons, List.foldl_cons]
    rw [hrun]
    apply ih
    · rw [store, hserve]
      exact Scene.build_faithful host hprepared
    · rw [store, hserve]
      exact (Scene.anchored_prepared host hanchored changes).touches
        (Scene.touches_build host hprepared)

/-- Between the requests of a run that takes note of changes, starts and
then updates, no link leads nowhere: whatever the hosts do, and wherever
the requests are withdrawn. -/
theorem updates_anchored (h₀ h₁ h₂ : Host) (withdrawn : Bool)
    (builtins files : List SourceFile) (queue : List Change)
    (bs : List (Host × Bool × List Change)) (n : Nat) :
    let rs := notices h₁ queue
      ++ ⟨h₂, withdrawn, .start files⟩ :: batches bs
    ((create h₀ builtins).run (rs.take n)).store.LinksHold := by
  intro rs
  refine Store.Anchored.linksHold ?_
  have hfresh := fresh_create h₀ builtins
  let noted := queue.take n
  let waiting := (create h₀ builtins).run (notices h₁ noted)
  obtain ⟨hgate, hstore⟩ :=
    run_notices_closed (w := create h₀ builtins) h₁ rfl noted
  have hstore : waiting.store = (create h₀ builtins).store := hstore
  have htake : rs.take n = notices h₁ noted
      ++ List.take (n - queue.length)
        (⟨h₂, withdrawn, .start files⟩ :: batches bs) := by
    show List.take n (notices h₁ queue ++ _) = _
    rw [List.take_append, notices, List.length_map, ← List.map_take]
    rfl
  rw [htake, run, List.foldl_append]
  show (run waiting (List.take (n - queue.length) _)).store.Anchored
  cases n - queue.length with
  | zero =>
    show waiting.store.Anchored
    rw [hstore]
    exact Store.anchored_of_fresh hfresh
  | succ k =>
    have hlater : (batches bs).take k = batches (bs.take k) :=
      (List.map_take ..).symm
    rw [List.take_succ_cons, hlater]
    obtain ⟨hfaithful, hanchored⟩ := anchored_start
      (w := waiting.begin withdrawn) (hstore ▸ (sound_create _ _).faithful)
      (congrArg Gate.isOpen hgate) (hstore ▸ hfresh) h₂ files
    exact anchored_batches hfaithful hanchored (bs.take k)

end Workspace

end Purview

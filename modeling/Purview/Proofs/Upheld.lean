/-
When the report of a complete project stands. A project is checked
against the graph of projects as it is known at the time, and what it
reports then hangs on the part of the graph that it reaches and on
nothing else (`SameFrom.facts`). So a report stands as long as nothing
in that part changes, and whoever changes something there has to send
the project back.

The graph is made of what the documents were last read to say. A text
that has changed changes nothing by itself; but the document is `changed`
from then on, and every project that reaches it has been sent back
(`Upheld.apart`). So when the text is read, or the document dropped,
only that part of the graph moves that no complete project reaches; and
the same goes for a document that is new, whose dependents are looked
for once it is there. No matter where builds stop, all reports stand
(`upheld_build`, `upheld_apply`), with one exception.

The exception is a name. Whoever depends on a name that nobody has
reaches nobody by it, and whoever depends on a name that belongs to
another reaches the other; so if a loaded document comes to have the
name, the projects that reach it so far are not all that it concerns.
Those that miss a dependency are sent back as well, but only if the
document is a project before, and not those that reach them. What is
left out is still complete when the text is read (`Store.news`).
-/
import Purview.Proofs.Anchored
import Purview.Proofs.Cycles
import Purview.Proofs.Stages

namespace Purview

open Relation (ReflTransGen)
open Walk (Edge)

-- ============================================================ the graph

namespace Store

/-- A project is another, or its dependencies lead there, by what the
documents were last read to say. -/
def Leads (s : Store) : Uri → Uri → Prop :=
  ReflTransGen (Edge (s.projects.targets .any))

/-- What a document was last read to describe. -/
def descriptorAt (s : Store) (u : Uri) : Option Descriptor :=
  (s.get? u).bind Document.descriptor?

variable {s t : Store} {u v : Uri} {d : Document}

theorem descriptorAt_of_get? (h : s.get? u = some d) :
    s.descriptorAt u = d.descriptor? := by
  unfold descriptorAt
  rw [h]
  rfl

theorem descriptor_get? (s : Store) (u : Uri) :
    (s.projects.get? u).map (·.descriptor) = s.descriptorAt u := by
  have hnd := s.uris_projects_nodup
  refine Option.ext fun x => ?_
  unfold descriptorAt
  rw [Option.map_eq_some_iff, Option.bind_eq_some_iff]
  constructor
  · rintro ⟨p, hp, rfl⟩
    obtain ⟨hmem, rfl⟩ := Projects.uri_of_get? hp
    obtain ⟨d, hd, hx, -⟩ := mem_projects.1 hmem
    exact ⟨d, hd, hx⟩
  · rintro ⟨d, hd, hx⟩
    have hmem : (⟨u, x, d.stage⟩ : Project) ∈ s.projects :=
      mem_projects.2 ⟨d, hd, hx, rfl⟩
    exact ⟨_, Projects.get?_of_mem hnd hmem, rfl⟩

/-- A name belongs to the first document that has it. -/
theorem uri_named? (s : Store) (name : String) :
    (s.projects.named? name).map (·.uri)
      = s.uris.find? fun v => (s.descriptorAt v).any (·.name = name) := by
  unfold Projects.named?
  rw [projects_eq_filterMap, List.find?_filterMap]
  have hsame : (fun v => ((s.get? v).bind fun d =>
        Project.ofEntry? (v, d)).any (·.descriptor.name = name))
      = fun v => (s.descriptorAt v).any (·.name = name) := by
    funext v
    unfold descriptorAt Project.ofEntry?
    cases s.get? v with
    | none => rfl
    | some d =>
      show (d.descriptor?.map _).any _ = d.descriptor?.any _
      rw [Option.any_map]
  rw [hsame]
  cases hfind : s.uris.find? fun v =>
      (s.descriptorAt v).any (·.name = name) with
  | none => rfl
  | some v =>
    have hv := List.find?_some hfind
    obtain ⟨x, hx, -⟩ := (Option.any_eq_true _ _).1 hv
    obtain ⟨d, hd, hdx⟩ := Option.bind_eq_some_iff.1 hx
    show Option.map _ ((s.get? v).bind _) = some v
    rw [hd]
    show Option.map _ (d.descriptor?.map _) = some v
    rw [hdx]
    rfl

/-- A search that differs in one place, where it finds less. -/
theorem find?_of_apart {p q : Uri → Bool} (us : List Uri) {u : Uri}
    (hsame : ∀ v, v ≠ u → q v = p v) (hless : q u = true → p u = true) :
    us.find? q = us.find? p ∨ us.find? p = some u := by
  induction us with
  | nil => exact .inl rfl
  | cons w us ih =>
    by_cases hw : w = u
    · subst hw
      cases hp : p w with
      | true => exact .inr (List.find?_cons_of_pos hp)
      | false =>
        have hq : ¬ q w = true := fun hq => by
          rw [hless hq] at hp
          cases hp
        rw [List.find?_cons_of_neg hq, List.find?_cons_of_neg (by simp [hp])]
        exact ih
    · cases hp : p w with
      | true =>
        rw [List.find?_cons_of_pos hp,
          List.find?_cons_of_pos ((hsame w hw).trans hp)]
        exact .inl rfl
      | false =>
        have hq : ¬ q w = true := by rw [hsame w hw, hp]; decide
        rw [List.find?_cons_of_neg hq, List.find?_cons_of_neg (by simp [hp])]
        exact ih

/-- An edge leads to a project. -/
theorem isProject_of_leads (h : s.Leads v u) (hne : v ≠ u) :
    s.isProject u = true := by
  obtain rfl | ⟨w, -, hedge⟩ := ReflTransGen.cases_tail h
  · exact absurd rfl hne
  · exact isProject_iff.2
      (Projects.targets_subset s.projects .any w hedge)

/-- One document has been replaced or dropped: whoever does not lead to
it has the same part of the graph, unless the document has come to have
a name on which something in that part depends. -/
theorem sameFrom_of_replaced
    (hothers : ∀ w, w ≠ u → t.descriptorAt w = s.descriptorAt w)
    (huris : t.uris = s.uris ∨ t.uris = s.uris.filter (· ≠ u))
    (hname : ∀ x, t.descriptorAt u = some x →
      (∃ y, s.descriptorAt u = some y ∧ y.name = x.name)
        ∨ ∀ w y, s.Leads v w → s.descriptorAt w = some y →
          ∀ e ∈ y.dependencies, e.name ≠ x.name)
    (hv : ¬ s.Leads v u) :
    Projects.SameFrom s.projects t.projects v := by
  refine Projects.sameFrom_of_apart (u := u) ?_ ?_ hv
  · intro w hw
    rw [descriptor_get?, descriptor_get?, hothers w hw]
  · intro w p hw hp e he
    have hy : s.descriptorAt w = some p.descriptor := by
      rw [← descriptor_get?, hp]
      rfl
    rw [uri_named?, uri_named?]
    have hfind : t.uris.find? (fun v =>
          (t.descriptorAt v).any (·.name = e.name))
        = s.uris.find? fun v =>
          (t.descriptorAt v).any (·.name = e.name) := by
      rcases huris with huris | huris
      · rw [huris]
      · -- A document that has been dropped has no name at all.
        have hgone : t.descriptorAt u = none := by
          unfold descriptorAt
          rw [(get?_eq_none t u).2 (by rw [huris]; simp)]
          rfl
        rw [huris, List.find?_filter]
        congr 1
        funext w
        by_cases hw : w = u
        · simp [hw, hgone]
        · simp [hw]
    rw [hfind]
    refine find?_of_apart s.uris (fun w hw => by rw [hothers w hw]) ?_
    intro hq
    obtain ⟨x, hx, hxn⟩ := (Option.any_eq_true _ _).1 hq
    have hxn : x.name = e.name := of_decide_eq_true hxn
    rcases hname x hx with ⟨y, hy, hyx⟩ | hnobody
    · rw [hy]
      exact decide_eq_true (hyx.trans hxn)
    · exact absurd hxn.symm (hnobody w p.descriptor hw hy e he)

/-- What a project depends on is the same in two stores. -/
structure SameView (s t : Store) (v : Uri) : Prop where
  facts : t.projects.facts v = s.projects.facts v
  leads : ∀ w, t.Leads v w ↔ s.Leads v w
  node : ∀ w, s.Leads v w → t.descriptorAt w = s.descriptorAt w

theorem SameView.symm (h : SameView s t v) : SameView t s v :=
  ⟨h.facts.symm, fun w => (h.leads w).symm,
    fun w hw => (h.node w ((h.leads w).1 hw)).symm⟩

theorem SameView.trans {r : Store} (h : SameView s t v)
    (h' : SameView t r v) : SameView s r v :=
  ⟨h'.facts.trans h.facts, fun w => (h'.leads w).trans (h.leads w),
    fun w hw => (h'.node w ((h.leads w).2 hw)).trans (h.node w hw)⟩

/-- A change after which the graph is what it was. -/
theorem sameView_of_plan (h : t.plan = s.plan) (v : Uri) :
    SameView s t v := by
  refine ⟨Projects.facts_of_plan h v, fun w => ?_, fun w _ => ?_⟩
  · unfold Leads
    rw [show t.projects.targets .any = s.projects.targets .any from
      funext (Projects.targets_of_plan h)]
  · have hplan := congrArg (Option.map Prod.snd) (Projects.get?_of_plan h w)
    rw [Option.map_map, Option.map_map] at hplan
    rw [← descriptor_get?, ← descriptor_get?]
    exact hplan

/-- A change to a part of the graph that a project does not reach. -/
theorem sameView_of_sameFrom
    (h : Projects.SameFrom s.projects t.projects v) : SameView s t v := by
  refine ⟨h.facts s.uris_projects_nodup t.uris_projects_nodup,
    fun _ => h.reaches, fun w hw => ?_⟩
  rw [← descriptor_get?, ← descriptor_get?]
  exact h.node w hw

end Store

-- ============================================================== reports

/-- A project that is complete. -/
structure Document.IsChecked (d : Document) : Prop where
  project : d.isProject = true
  stage : d.stage = .validated

namespace Store

/-- What complete projects report is what their dependencies come to. -/
structure Upheld (s : Store) : Prop where
  /-- No complete project leads to a document whose text is still to be
  read. -/
  apart : ∀ u d, s.get? u = some d → d.IsChecked →
    ∀ v x, s.get? v = some x → x.stage = .changed → ¬ s.Leads u v
  /-- Every complete project has been checked against the graph. -/
  checked : ∀ u d, s.get? u = some d → d.IsChecked →
    d = d.built u ⟨[], some (s.projects.facts u)⟩

/-- The complete projects are as they were, and depend on the same. -/
def Preserves (s t : Store) : Prop :=
  ∀ v d, t.get? v = some d → d.IsChecked →
    s.get? v = some d ∧ SameView s t v

variable {s t : Store} {u v : Uri} {d : Document}

/-- Reports are upheld by a change that preserves the complete projects, if
none of them leads to a document that has come to be `changed`. -/
theorem Upheld.mono (h : s.Upheld) (hpreserves : Preserves s t)
    (hchanged : ∀ v d, t.get? v = some d → d.stage = .changed →
      (∃ x, s.get? v = some x ∧ x.stage = .changed)
        ∨ ∀ w x, t.get? w = some x → x.IsChecked → ¬ s.Leads w v) :
    t.Upheld := by
  refine ⟨?_, ?_⟩
  · intro u d hd hu v x hx hv hway
    obtain ⟨hsame, hview⟩ := hpreserves u d hd hu
    rcases hchanged v x hx hv with ⟨y, hy, hstage⟩ | hnot
    · exact h.apart u d hsame hu v y hy hstage ((hview.leads v).1 hway)
    · exact hnot u d hd hu ((hview.leads v).1 hway)
  · intro u d hd hu
    obtain ⟨hsame, hview⟩ := hpreserves u d hd hu
    rw [hview.facts]
    exact h.checked u d hsame hu

end Store

-- ================================================================= news

/-- Whether a document depends on a name, by what it was last read to
say or by its text. -/
def Document.mentions (d : Document) (name : String) : Bool :=
  d.descriptor?.any (·.dependsOn name)
    || d.reading.descriptor?.any (·.dependsOn name)

/-- The name that the text of a document gives it, if it was not read to
have that name before. -/
def Document.newName? (d : Document) : Option String :=
  (d.reading.descriptor?.map (·.name)).filter
    fun name => d.descriptor?.map (·.name) ≠ some name

namespace Store

/-- Whether a loaded document depends on a name. -/
def mentions (s : Store) (name : String) : Bool :=
  s.entries.any (·.2.mentions name)

/-- Whether a complete project depends on a name, itself or by way of
others. -/
def relies (s : Store) (name : String) : Bool :=
  s.entries.any fun e =>
    e.2.isProject && e.2.stage = .validated
      && (s.projects.closure .any e.1).any fun w =>
        (s.descriptorAt w).any (·.dependsOn name)

/-- Whether a text is still to be read that gives its document a name
which the document did not have and which matters to somebody. All
projects that have changed are read at once, before any is completed, so
that the name of one matters to projects that are complete already; any
other document is read when the projects are done. -/
def news (s : Store) : Bool :=
  s.entries.any fun e => e.2.stage = .changed
    && e.2.newName?.any (if e.2.isProject then s.relies else s.mentions)

variable {s t : Store} {u v : Uri} {d : Document} {name : String}

theorem mentions_iff : s.mentions name = true ↔
    ∃ u d, s.get? u = some d ∧ d.mentions name = true := by
  unfold mentions
  simp only [List.any_eq_true, Prod.exists, mem_entries]

theorem relies_iff : s.relies name = true ↔
    ∃ u d, s.get? u = some d ∧ d.IsChecked ∧ ∃ w x, s.Leads u w
      ∧ s.descriptorAt w = some x ∧ x.dependsOn name = true := by
  unfold relies
  simp only [List.any_eq_true, Prod.exists, mem_entries, Bool.and_eq_true,
    decide_eq_true_eq, Option.any_eq_true, Projects.mem_closure]
  constructor
  · rintro ⟨u, d, hd, ⟨hproject, hstage⟩, w, ⟨-, hleads⟩, x, hx, hname⟩
    exact ⟨u, d, hd, ⟨hproject, hstage⟩, w, x, hleads, hx, hname⟩
  · rintro ⟨u, d, hd, ⟨hproject, hstage⟩, w, x, hleads, hx, hname⟩
    exact ⟨u, d, hd, ⟨hproject, hstage⟩, w,
      ⟨isProject_iff.1 ((isProject_of_get? hd).trans hproject), hleads⟩,
      x, hx, hname⟩

theorem news_iff : s.news = true ↔
    ∃ u d name, s.get? u = some d ∧ d.stage = .changed
      ∧ d.newName? = some name
      ∧ (if d.isProject then s.relies else s.mentions) name = true := by
  unfold news
  simp only [List.any_eq_true, Prod.exists, mem_entries, Bool.and_eq_true,
    decide_eq_true_eq, Option.any_eq_true, exists_and_left]

/-- Who depends on a name by way of others depends on somebody who
mentions it. -/
theorem mentions_of_relies (h : s.relies name = true) :
    s.mentions name = true := by
  obtain ⟨-, -, -, -, w, x, -, hx, hname⟩ := relies_iff.1 h
  obtain ⟨d, hd, hdx⟩ := Option.bind_eq_some_iff.1 hx
  refine mentions_iff.2 ⟨w, d, hd, ?_⟩
  unfold Document.mentions
  rw [hdx, Option.any_some, hname, Bool.true_or]

/-- What preserves the complete projects makes none of them depend on a
name. -/
theorem relies_of_preserves (h : Preserves s t)
    (hname : t.relies name = true) : s.relies name = true := by
  obtain ⟨u, d, hd, hchecked, w, x, hleads, hx, hname⟩ :=
    relies_iff.1 hname
  obtain ⟨hsame, hview⟩ := h u d hd hchecked
  have hleads := (hview.leads w).1 hleads
  exact relies_iff.2 ⟨u, d, hsame, hchecked, w, x, hleads,
    (hview.node w hleads).symm.trans hx, hname⟩

/-- A text that is no news gives its document a name that it has, or
one that matters to no complete project. -/
theorem name_of_not_news (h : s.news = false) (hd : s.get? u = some d)
    (hstage : d.stage = .changed) {x : Descriptor}
    (hx : d.reading.descriptor? = some x) :
    (∃ y, d.descriptor? = some y ∧ y.name = x.name)
      ∨ s.relies x.name = false := by
  by_cases hname : d.descriptor?.map (·.name) = some x.name
  · obtain ⟨y, hy, hyx⟩ := Option.map_eq_some_iff.1 hname
    exact .inl ⟨y, hy, hyx⟩
  · refine .inr (Bool.eq_false_iff.2 fun hrelies => ?_)
    have hnew : d.newName? = some x.name := by
      unfold Document.newName?
      rw [hx, Option.map_some]
      exact Option.filter_some_pos (decide_eq_true hname)
    have hmatters : (if d.isProject then s.relies else s.mentions) x.name
        = true := by
      split
      · exact hrelies
      · exact mentions_of_relies hrelies
    rw [news_iff.2 ⟨u, d, x.name, hd, hstage, hnew, hmatters⟩] at h
    cases h

/-- What a touch leaves of a document. -/
theorem Touch.follows {host : Host} {d' : Document}
    (h : s.Touch host u d d') : d.Follows d' := by
  cases h with
  | renewed hrenewed =>
    cases hrenewed with
    | cleared => exact d.forward_clearFailures.follows
    | read => exact d.follows_reread
  | ended phase i _ => exact (d.forward_attempt host phase u _).follows

/-- A document that is still to be read behind a touch has only been
cleared. -/
theorem Touch.eq_cleared {host : Host} {d' : Document}
    (h : s.Touch host u d d') (hstage : d'.stage = .changed) :
    d' = d.clearFailures := by
  cases h with
  | renewed hrenewed =>
    cases hrenewed with
    | cleared => rfl
    | read => exact absurd hstage d.stage_reread_ne
  | ended phase i hbase =>
    have hforward := (d.forward_attempt host phase u
      (phase.handed i s u)).stage
    rw [hstage, hbase] at hforward
    cases phase <;> exact absurd hforward (by decide)

/-- A touch makes nobody depend on a name. -/
theorem mentions_touched {host : Host} (ht : Touched host s t)
    (h : t.mentions name = true) : s.mentions name = true := by
  obtain ⟨u, d, d', hd, htouch, rfl⟩ := ht
  obtain ⟨v, x, hx, hname⟩ := mentions_iff.1 h
  rw [get?_modify_const hd] at hx
  split at hx
  · cases hx
    refine mentions_iff.2 ⟨u, d, hd, ?_⟩
    have hfollows := htouch.follows
    have hreading : d'.reading = d.reading := by
      unfold Document.reading
      rw [hfollows.text]
    unfold Document.mentions at hname ⊢
    rw [hreading] at hname
    rcases hfollows.descriptor with hdescriptor | hdescriptor
    · rwa [hdescriptor] at hname
    · rw [show d'.descriptor? = d.reading.descriptor? from hdescriptor,
        Bool.or_self] at hname
      rw [hname, Bool.or_true]
  · exact mentions_iff.2 ⟨v, x, hx, hname⟩

/-- A text that is still to be read behind a touch was before it. -/
theorem changed_of_touched {host : Host} (ht : Touched host s t)
    (hd : t.get? v = some d) (hstage : d.stage = .changed) :
    ∃ x, s.get? v = some x ∧ (d = x ∨ d = x.clearFailures) := by
  obtain ⟨u, x, d', hx, htouch, rfl⟩ := ht
  rw [get?_modify_const hx] at hd
  split at hd
  · next hv =>
    cases hd
    exact ⟨x, hv ▸ hx, .inr (htouch.eq_cleared hstage)⟩
  · exact ⟨d, hd, .inl rfl⟩

/-- A touch brings no news, if it makes no complete project depend on a
name that a changed project may have. -/
theorem news_touched {host : Host} (h : s.news = false)
    (ht : Touched host s t)
    (hrelies : ∀ v d, t.get? v = some d → d.stage = .changed →
      d.isProject = true → ∀ name, t.relies name = true →
        s.relies name = true) : t.news = false := by
  refine Bool.eq_false_iff.2 fun hnews => ?_
  obtain ⟨v, d, name, hd, hstage, hname, hmatters⟩ := news_iff.1 hnews
  obtain ⟨x, hx, hdx⟩ := changed_of_touched ht hd hstage
  have hmatters : (if d.isProject then s.relies else s.mentions) name
      = true := by
    split at hmatters
    · next hproject =>
      rw [if_pos hproject]
      exact hrelies v d hd hstage hproject name hmatters
    · next hproject =>
      rw [if_neg hproject]
      exact mentions_touched ht hmatters
  have hold : s.news = true := by
    rcases hdx with rfl | rfl
    · exact news_iff.2 ⟨v, d, name, hx, hstage, hname, hmatters⟩
    · exact news_iff.2 ⟨v, x, name, hx, hstage, hname, hmatters⟩
  rw [hold] at h
  cases h

theorem ProjectsRead.touched {host : Host} (h : s.ProjectsRead)
    (ht : Touched host s t) : t.ProjectsRead := by
  intro v d hd hproject hstage
  obtain ⟨x, hx, rfl | rfl⟩ := changed_of_touched ht hd hstage
  · exact h v d hx hproject hstage
  · exact h v x hx hproject hstage

-- =============================================================== builds

/-- Reading a text that is no news. -/
theorem preserves_read (h : s.Upheld) (hnews : s.news = false)
    (hd : s.get? u = some d) (hstage : d.stage = .changed) :
    Preserves s (s.modify u fun _ => d.reread) := by
  have hget := get?_modify_const hd d.reread
  have hfresh : d.reread = d.fresh := Document.reread_of_changed hstage
  have hnew : (s.modify u fun _ => d.reread).get? u = some d.reread := by
    rw [hget, if_pos rfl]
  intro v x hx hv
  rw [hget] at hx
  split at hx
  · cases hx
    have hparsed : d.fresh.stage = .validated := hfresh ▸ hv.stage
    cases hparsed
  · refine ⟨hx, sameView_of_sameFrom (sameFrom_of_replaced (u := u) ?_
      (.inl (s.uris_modify u _)) ?_ (h.apart v x hx hv u d hd hstage))⟩
    · intro w hw
      unfold descriptorAt
      rw [hget, if_neg hw]
    · intro y hy
      rw [descriptorAt_of_get? hnew, hfresh] at hy
      rw [descriptorAt_of_get? hd]
      refine (name_of_not_news hnews hd hstage hy).imp_right
        fun hrelies w z hw hz e he hname => ?_
      have hdepends : z.dependsOn y.name = true :=
        List.any_eq_true.2 ⟨e, he, decide_eq_true hname⟩
      rw [relies_iff.2 ⟨v, x, hx, hv, w, z, hw, hz, hdepends⟩] at hrelies
      cases hrelies

/-- Work that is no reading leaves the graph alone. -/
theorem plan_worked {d' : Document} (hd : s.get? u = some d)
    (hdescriptor : d'.descriptor? = d.descriptor?) :
    (s.modify u fun _ => d').plan = s.plan := by
  refine plan_congr (s.uris_modify u _) fun v => ?_
  rw [get?_modify_const hd]
  split
  · next hv =>
    rw [hv, hd]
    exact hdescriptor
  · rfl

/-- A document is worked on, and is neither read nor made complete. -/
theorem preserves_worked {d' : Document} (hd : s.get? u = some d)
    (hdescriptor : d'.descriptor? = d.descriptor?)
    (hchecked : d'.IsChecked → d' = d) :
    Preserves s (s.modify u fun _ => d') := by
  intro v x hx hv
  refine ⟨?_, sameView_of_plan (plan_worked hd hdescriptor) v⟩
  rw [get?_modify_const hd] at hx
  split at hx
  · next hvu =>
    cases hx
    rw [hvu, hd, hchecked hv]
  · exact hx

theorem preserves_renewed (hs : s.Formed) (hnews : s.news = false)
    (h : s.Upheld) (ht : Renewed s t) : Preserves s t := by
  obtain ⟨u, d, d', hd, hrenewed, rfl⟩ := ht
  cases hrenewed with
  | cleared =>
    refine preserves_worked hd rfl fun hu => ?_
    refine Document.clearFailures_of_formed (hs u d hd) hu.project ?_
    rw [show d.stage = .validated from hu.stage]
    decide
  | read hstage => exact preserves_read h hnews hd hstage

/-- Reports are upheld by a touch that preserves the complete projects. -/
theorem Upheld.touch {host : Host} (h : s.Upheld) (ht : Touched host s t)
    (hpreserves : Preserves s t) : t.Upheld := by
  refine h.mono hpreserves fun v d hd hstage => .inl ?_
  obtain ⟨x, hx, rfl | rfl⟩ := changed_of_touched ht hd hstage
  · exact ⟨d, hx, hstage⟩
  · exact ⟨x, hx, hstage⟩

/-- Once every project has been read, nobody leads to a text that is
still to be read. -/
theorem ProjectsRead.not_leads (h : s.ProjectsRead)
    (hu : s.get? u = some d) (hstage : d.stage = .changed) (hv : v ≠ u) :
    ¬ s.Leads v u := by
  intro hleads
  refine h u d hu ?_ hstage
  rw [← isProject_of_get? hu]
  exact isProject_of_leads hleads hv

/-- Checking a project, once every project has been read. -/
theorem Upheld.built (h : s.Upheld) (hread : s.ProjectsRead)
    (hd : s.get? u = some d)
    (hdescriptor : (d.built u ⟨[], some (s.projects.facts u)⟩).descriptor?
      = d.descriptor?) :
    (s.modify u fun _ =>
      d.built u ⟨[], some (s.projects.facts u)⟩).Upheld := by
  have hget := get?_modify_const hd
    (d.built u ⟨[], some (s.projects.facts u)⟩)
  have hview := sameView_of_plan (plan_worked hd hdescriptor)
  refine ⟨?_, ?_⟩
  · intro v x hx hv w y hy hstage hway
    rw [hget] at hy
    split at hy
    · cases hy
      cases hstage
    · next hw =>
      refine hread.not_leads hy hstage (fun hvw => ?_)
        (((hview v).leads w).1 hway)
      rw [hvw, hget, if_neg hw, hy] at hx
      cases hx
      rw [hv.stage] at hstage
      cases hstage
  · intro v x hx hv
    rw [(hview v).facts]
    rw [hget] at hx
    split at hx
    · next hvu =>
      cases hx
      rw [hvu]
      exact (Document.built_congr (d.alike_built u _) u _).symm
    · exact h.checked v x hx hv

/-- Once every project has been read, a project is checked against the
graph as it stays. -/
theorem Upheld.touched {cut : Option (Step × Uri)} (hs : s.Formed)
    (hread : s.ProjectsRead) (hnews : s.news = false) (h : s.Upheld)
    (ht : Touched (.until cut) s t) : t.Upheld := by
  obtain ⟨u, d, d', hd, htouch, rfl⟩ := ht
  have htouched : Touched (.until cut) s (s.modify u fun _ => d') :=
    ⟨u, d, d', hd, htouch, rfl⟩
  cases htouch with
  | renewed hrenewed =>
    exact h.touch htouched
      (preserves_renewed hs hnews h ⟨u, d, d', hd, hrenewed, rfl⟩)
  | ended phase i hbase =>
    have hforward := d.forward_attempt (.until cut) phase u
      (phase.handed i s u)
    by_cases hproject : d.isProject = true
    · have hform : d.ended phase ((Host.until cut).attempt phase.step u
            (phase.work u (phase.handed i s u) d))
          = d.atStage u ⟨[], some (s.projects.facts u)⟩ phase.goal :=
        (Document.ended_of_formed cut (hs u d hd) hproject hbase _).trans
          (atStage_handed hd hproject d phase i)
      rw [hform] at hforward htouched ⊢
      by_cases hvalidate : phase = .validate
      · subst hvalidate
        exact h.built hread hd hforward.descriptor
      · refine h.touch htouched
          (preserves_worked hd hforward.descriptor fun hu => ?_)
        have hstage := hu.stage
        cases phase <;> first | exact absurd rfl hvalidate | cases hstage
    · refine h.touch htouched
        (preserves_worked hd hforward.descriptor fun hu => ?_)
      exact absurd (hforward.isProject.symm.trans hu.project) hproject

-- ============================================================== changes

/-- Documents are sent back, some of them to the very start; whoever
leads to one of these has been sent back as well. -/
theorem Upheld.alter (h : s.Upheld) {f : Uri → Document → Document}
    (hf : ∀ v d, s.get? v = some d → f v d = d ∨ f v d = d.sentBack
      ∨ f v d = d.outdated ∧ ∀ w x, s.get? w = some x →
        (f w x).IsChecked → ¬ s.Leads w v) :
    (s.alter f).Upheld := by
  have hplan : (s.alter f).plan = s.plan := plan_alter fun v d hd => by
    rcases hf v d hd with hv | hv | ⟨hv, -⟩ <;> simp [hv]
  refine h.mono ?_ ?_
  · intro v x hx hchecked
    refine ⟨?_, sameView_of_plan hplan v⟩
    rw [get?_alter] at hx
    obtain ⟨d, hd, rfl⟩ := Option.map_eq_some_iff.1 hx
    rcases hf v d hd with hv | hv | ⟨hv, -⟩
    · rw [hv]
      exact hd
    · have hlt := d.stage_sentBack_lt
      rw [← hv, hchecked.stage] at hlt
      exact absurd hlt (by decide)
    · have hstage := hchecked.stage
      rw [hv, Document.stage_outdated] at hstage
      cases hstage
  · intro v x hx hstage
    rw [get?_alter] at hx
    obtain ⟨d, hd, rfl⟩ := Option.map_eq_some_iff.1 hx
    rcases hf v d hd with hv | hv | ⟨-, hnot⟩
    · rw [hv] at hstage
      exact .inl ⟨d, hd, hstage⟩
    · rw [hv, Document.stage_sentBack] at hstage
      split at hstage
      · cases hstage
      · exact .inl ⟨d, hd, hstage⟩
    · refine .inr fun w y hy hchecked => ?_
      rw [get?_alter] at hy
      obtain ⟨x, hx, rfl⟩ := Option.map_eq_some_iff.1 hy
      exact hnot w x hx hchecked

theorem Upheld.sentBack (h : s.Upheld) (us : List Uri) :
    (s.alter fun v d => if v ∈ us then d.sentBack else d).Upheld := by
  refine h.alter fun v d _ => ?_
  split
  · exact .inr (.inl rfl)
  · exact .inl rfl

/-- Dropping a document whose text is still to be read. -/
theorem Upheld.erase (h : s.Upheld) (hu : s.get? u = some d)
    (hstage : d.stage = .changed) : (s.erase u).Upheld := by
  have hget : ∀ v x, (s.erase u).get? v = some x →
      s.get? v = some x := by
    intro v x hx
    rw [get?_erase] at hx
    split at hx
    · cases hx
    · exact hx
  refine h.mono ?_ ?_
  · intro v x hx hv
    have hsame := hget v x hx
    refine ⟨hsame, sameView_of_sameFrom (sameFrom_of_replaced (u := u) ?_
      (.inr (s.uris_erase u)) ?_ (h.apart v x hsame hv u d hu hstage))⟩
    · intro w hw
      unfold descriptorAt
      rw [get?_erase, if_neg hw]
    · intro y hy
      unfold descriptorAt at hy
      rw [get?_erase, if_pos rfl] at hy
      cases hy
  · intro v x hx hv
    exact .inl ⟨x, hget v x hx, hv⟩

/-- Who leads to a document is among its dependents. -/
theorem not_leads_of_not_mem (hd : s.get? v = some d)
    (hproject : d.isProject = true) (hv : v ≠ u)
    (h : s.isProject u = true → v ∉ s.projects.dependents u) :
    ¬ s.Leads v u := by
  intro hleads
  exact h (isProject_of_leads hleads hv)
    ((Projects.mem_dependents s.uris_projects_nodup).2
      ⟨isProject_iff.1 ((isProject_of_get? hd).trans hproject), hv,
        hleads⟩)

/-- A document that has just been loaded is nothing to those who do not
depend on it. -/
theorem sameView_insert (hu : s.get? u = none) {d' : Document}
    (hv : ¬ (s.insert u d').Leads v u) : SameView s (s.insert u d') v := by
  have huris : u ∉ s.uris := (get?_eq_none s u).1 hu
  refine (sameView_of_sameFrom (sameFrom_of_replaced (u := u)
    (fun w hw => ?_) (.inr ?_) (fun x hx => ?_) hv)).symm
  · unfold descriptorAt
    rw [get?_insert, if_neg hw]
  · rw [uris_insert, if_neg huris, List.filter_append,
      List.filter_eq_self.2 fun w hw => decide_eq_true
        (ne_of_mem_of_not_mem hw huris)]
    simp
  · unfold descriptorAt at hx
    rw [hu] at hx
    cases hx

/-- Loading a document, with the projects that depend on it sent back. -/
theorem Upheld.insert (h : s.Upheld) (hu : s.get? u = none)
    (text : String) {us : List Uri}
    (hus : (Document.read text).isProject = true →
      (s.insert u (.read text)).projects.dependents u ⊆ us) :
    ((s.insert u (.read text)).alter fun v d =>
      if v ∈ us then d.sentBack else d).Upheld := by
  have hnew : (s.insert u (.read text)).get? u = some (.read text) := by
    rw [get?_insert, if_pos rfl]
  have hplan : ((s.insert u (.read text)).alter fun v d =>
      if v ∈ us then d.sentBack else d).plan
        = (s.insert u (.read text)).plan := plan_alter fun v d _ => by
    split <;> simp
  refine h.mono ?_ ?_
  · intro v x hx hchecked
    rw [get?_alter] at hx
    obtain ⟨d, hd, rfl⟩ := Option.map_eq_some_iff.1 hx
    have hnot : v ∉ us := fun hv => by
      rw [if_pos hv] at hchecked
      have hlt := d.stage_sentBack_lt
      rw [hchecked.stage] at hlt
      exact absurd hlt (by decide)
    rw [if_neg hnot] at hchecked ⊢
    have hne : v ≠ u := by
      rintro rfl
      rw [hnew] at hd
      cases hd
      have hstage := hchecked.stage
      cases hstage
    have hview := sameView_insert hu (not_leads_of_not_mem hd
      hchecked.project hne fun hproject hv => hnot (hus
        ((isProject_of_get? hnew).symm.trans hproject) hv))
    rw [get?_insert, if_neg hne] at hd
    exact ⟨hd, hview.trans (sameView_of_plan hplan v)⟩
  · intro v x hx hstage
    rw [get?_alter, get?_insert] at hx
    obtain ⟨d, hd, rfl⟩ := Option.map_eq_some_iff.1 hx
    have hchanged : d.stage = .changed := by
      split at hstage
      · rw [Document.stage_sentBack] at hstage
        split at hstage
        · cases hstage
        · exact hstage
      · exact hstage
    split at hd
    · cases hd
      cases hchanged
    · exact .inl ⟨d, hd, hchanged⟩

end Store

namespace Scene

open Store (Touches)

/-- A build without failures upholds the reports, if it has no news to
read. -/
theorem upheld_build (cut : Option (Step × Uri)) {s : Scene}
    (hs : s.store.Faithful) (hformed : s.store.Formed)
    (hnews : s.store.news = false) (h : s.store.Upheld) :
    (s.build (.until cut)).1.store.Upheld := by
  obtain ⟨m, hm, hbuild⟩ := build_touches (.until cut) hs
  have hrenewed : m.Formed ∧ m.news = false ∧ m.Upheld := by
    clear hbuild
    induction hm with
    | refl => exact ⟨hformed, hnews, h⟩
    | tail _ hstep ih =>
      obtain ⟨hformed, hnews, h⟩ := ih
      have htouched : Store.Touched .calm _ _ := hstep.touched
      have hpreserves := Store.preserves_renewed hformed hnews h hstep
      exact ⟨hformed.renewed hstep,
        Store.news_touched hnews htouched fun _ _ _ _ _ _ =>
          Store.relies_of_preserves hpreserves,
        h.touch htouched hpreserves⟩
  obtain ⟨hmf, hmn, hmu⟩ := hrenewed
  rcases hbuild with hbuild | ⟨hread, htouches⟩
  · rw [hbuild]
    exact hmu
  · have htouched : ∀ {t}, Touches (.until cut) m t → t.Formed
        ∧ t.ProjectsRead ∧ t.news = false ∧ t.Upheld := by
      intro t ht
      induction ht with
      | refl => exact ⟨hmf, hread, hmn, hmu⟩
      | tail _ hstep ih =>
        obtain ⟨hformed, hread, hnews, h⟩ := ih
        have hread' := hread.touched hstep
        exact ⟨hformed.touched hstep, hread',
          Store.news_touched hnews hstep fun v d hd hstage hproject =>
            absurd hstage (hread' v d hd hproject),
          h.touched hformed hread hnews hstep⟩
    exact (htouched htouches).2.2.2

/-- Accounting for a change to a document. -/
theorem upheld_invalidate (host : Host) {s : Scene} (h : s.store.Upheld)
    (u : Uri) : (s.invalidate host u).1.store.Upheld := by
  rw [store_invalidate]
  refine h.alter fun v d hd => ?_
  by_cases hv : v = u
  · subst hv
    refine .inr (.inr ⟨if_pos rfl, fun w x hx hchecked => ?_⟩)
    have hne : w ≠ v := by
      rintro rfl
      have hstage := hchecked.stage
      rw [if_pos rfl, Document.stage_outdated] at hstage
      cases hstage
    rw [if_neg hne] at hchecked
    have hnot : w ∉ s.store.concerned v := fun hw => by
      rw [if_pos hw] at hchecked
      have hlt := x.stage_sentBack_lt
      rw [hchecked.stage] at hlt
      exact absurd hlt (by decide)
    rw [if_neg hnot] at hchecked
    refine Store.not_leads_of_not_mem hx hchecked.project hne
      fun hproject hw => hnot ?_
    unfold Store.concerned
    rw [hd]
    dsimp only
    rw [if_pos ((Store.isProject_of_get? hd).symm.trans hproject)]
    exact Distinct.mem_union.2 (.inl hw)
  · rw [if_neg hv]
    split
    · exact .inr (.inl rfl)
    · exact .inl rfl

/-- Behind that, the document is at the very start. -/
theorem get?_invalidate_self (host : Host) {s : Scene} {u : Uri}
    {d : Document} (hd : s.store.get? u = some d) :
    (s.invalidate host u).1.store.get? u = some d.outdated := by
  rw [store_invalidate, Store.get?_alter, hd, Option.map_some, if_pos rfl]

/-- Giving a document a text. -/
theorem upheld_put (host : Host) {s : Scene} (h : s.store.Upheld)
    (file : SourceFile) : (s.put host file).1.store.Upheld := by
  cases hd : s.store.get? file.uri with
  | none =>
    rw [put_of_none host hd, store_added host
      (store_insertRead_self host s file.uri file.text)]
    refine h.insert hd file.text fun hproject => ?_
    rw [if_pos hproject]
    exact fun v hv => Distinct.mem_union.2 (.inl hv)
  | some d =>
    cases hb : d.builtin with
    | true =>
      rw [put_of_builtin host hd hb]
      exact h
    | false =>
      have hout := get?_invalidate_self host hd
      rw [put_of_loaded host hd hb, store_modify, Store.modify_of_some hout]
      refine (upheld_invalidate host h file.uri).mono
        (Store.preserves_worked hout rfl fun hu => ?_) fun v x hx hstage =>
          .inl ?_
      · have hstage : d.outdated.stage = .validated := hu.stage
        rw [Document.stage_outdated] at hstage
        cases hstage
      · rw [Store.get?_modify_const hout] at hx
        split at hx
        · next hv => exact ⟨_, hv ▸ hout, d.stage_outdated⟩
        · exact ⟨x, hx, hstage⟩

/-- Dropping a document. -/
theorem upheld_remove (host : Host) {s : Scene} (h : s.store.Upheld)
    (u : Uri) : (s.remove host u).1.store.Upheld := by
  cases hd : s.store.get? u with
  | none =>
    rw [remove_of_none host hd]
    exact h
  | some d =>
    cases hb : d.builtin with
    | true =>
      rw [remove_of_builtin host ((Store.isBuiltin_of_some hd).trans hb)]
      exact h
    | false =>
      rw [(remove_of_loaded host hd hb).1]
      exact (upheld_invalidate host h u).erase
        (get?_invalidate_self host hd) d.stage_outdated

theorem upheld_apply (host : Host) {s : Scene} (h : s.store.Upheld)
    (c : Change) : (s.apply host c).1.store.Upheld := by
  cases c with
  | edit file => exact upheld_put host h file
  | removal u => exact upheld_remove host h u

/-- Making the changes of a batch and relinking what they may concern. -/
theorem upheld_prepared (host : Host) {s : Scene} (h : s.store.Upheld)
    (changes : List Change) : (s.prepared host changes).store.Upheld := by
  rw [store_prepared]
  refine Store.Upheld.sentBack ?_ _
  exact applyAll_induction (P := fun s => s.store.Upheld) host h
    fun _ c _ h => upheld_apply host h c

end Scene

end Purview

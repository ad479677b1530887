/-
What a build over a batch may do to the documents. It takes each of
them onward or leaves it where it is: text, version and builtin mark
stay, and so does all that the document was last read to say, the
targets of its references apart, unless the text has changed since
(`Document.Onward`). Documents outside the batch and documents that are
complete stay as they are in every field.

Both hold of every scene and every host, whatever steps it makes fail
and wherever it withdraws its request: the first because every touch of
a build moves a document onward (`Touch.onward`), the second because a
build reads and runs nothing but the unfinished documents of its batch
(`Pass.carries_within`).
-/
import Purview.Proofs.Anchored
import Purview.Proofs.Journey

namespace Purview

-- ========================================================= one document

namespace Document

/-- What the document was last read to say, without the targets of its
references. -/
def bare (d : Document) : Option Content := d.content.map Content.unlink

/-- What a build may make of a document. -/
structure Onward (d d' : Document) : Prop where
  alike : d.Alike d'
  stage : d.stage ≤ d'.stage
  bare : d.stage ≠ .changed → d'.bare = d.bare

variable {d d' : Document}

theorem Onward.refl (d : Document) : d.Onward d :=
  ⟨⟨rfl, rfl, rfl⟩, Nat.le_refl _, fun _ => rfl⟩

/-- Going on can be done in steps. -/
theorem Onward.trans {a b c : Document} (h : a.Onward b)
    (h' : b.Onward c) : a.Onward c := by
  refine ⟨h.alike.trans h'.alike, Nat.le_trans h.stage h'.stage,
    fun hread => ?_⟩
  have hparsed := Nat.le_trans (Stage.parsed_le.2 hread) h.stage
  exact (h'.bare (Stage.parsed_le.1 hparsed)).trans (h.bare hread)

/-- A move forward that leaves the content alone, targets apart. -/
theorem Forward.onward (h : d.Forward d') (hbare : d'.bare = d.bare) :
    d.Onward d' :=
  ⟨h.alike, h.stage, fun _ => hbare⟩

theorem bare_of_body? {b : Body} (h : d.body? = some b) :
    d.bare = some (.ordinary b.unlink) := by
  obtain ⟨c, hc, hb⟩ := Option.bind_eq_some_iff.1 h
  unfold bare
  rw [hc]
  cases c with
  | descriptor x => cases hb
  | ordinary b' =>
    obtain rfl : b' = b := Option.some.inj hb
    rfl

/-- Linking sets targets; no other phase touches the content. -/
theorem Worked.bare {phase : Phase} {u : Uri} {scope : LinkScope}
    (h : d.Worked phase u scope d') : d'.bare = d.bare := by
  rcases h.content with ⟨hsame, -⟩ | ⟨-, own, b, -, hb, hb'⟩
  · unfold Document.bare
    rw [hsame]
  · rw [bare_of_body? hb, bare_of_body? hb']
    simp [Body.unlink, linkBody]

theorem bare_advance (d : Document) (stage : Stage) :
    (d.advance stage).bare = d.bare := by
  unfold advance
  split <;> rfl

end Document

/-- Every touch of a build moves a document onward. -/
theorem Store.Touch.onward {host : Host} {s : Store} {u : Uri}
    {d d' : Document} (h : s.Touch host u d d') : d.Onward d' := by
  cases h with
  | renewed h =>
    cases h with
    | cleared => exact d.forward_clearFailures.onward rfl
    | read hstage =>
      refine ⟨d.alike_reread, ?_, fun hread => absurd hstage hread⟩
      rw [hstage]
      exact Nat.zero_le _
  | ended phase i hbase =>
    have hwork : ∀ x, (host.attempt phase.step u (phase.work u
        (phase.handed i s u) d)).result? = some x → d.Onward x := by
      intro x hx
      have hok := Scene.result?_attempt host hx
      exact (Document.forward_work hok).onward
        (Document.worked_of_work hok).bare
    refine Document.ended_induction
      (fun x _ hx => hx.trans ((x.forward_report _).onward rfl))
      (.refl d) (fun x hx => ?_) fun _ x hx => hwork x hx
    exact (hwork x hx).trans
      ((x.forward_advance _).onward (x.bare_advance _))

-- ========================================================== whole builds

namespace Store

/-- The same documents are loaded, and none has changed but some. -/
structure Within (us : List Uri) (s t : Store) : Prop where
  uris : t.uris = s.uris
  others : ∀ u, u ∉ us → t.get? u = s.get? u

/-- What a build over a batch may make of the documents. -/
structure Onward (batch : List Uri) (s t : Store) : Prop where
  uris : t.uris = s.uris
  each : ∀ u d, s.get? u = some d → ∃ d', t.get? u = some d' ∧ d.Onward d'
  outside : ∀ u, u ∉ batch → t.get? u = s.get? u
  complete : ∀ u d, s.get? u = some d → d.stage = .validated →
    t.get? u = some d

variable {us : List Uri} {s t : Store}

theorem Within.trans {r : Store} (h : Within us s t)
    (h' : Within us t r) : Within us s r :=
  ⟨h'.uris.trans h.uris, fun u hu => (h'.others u hu).trans (h.others u hu)⟩

/-- A change in place stays within those that it changes. -/
theorem within_alter {f : Uri → Document → Document}
    (h : ∀ u d, u ∉ us → f u d = d) : Within us s (s.alter f) := by
  refine ⟨s.uris_alter f, fun u hu => ?_⟩
  rw [get?_alter]
  cases s.get? u with
  | none => rfl
  | some d => exact congrArg some (h u d hu)

/-- A build works on the documents of its batch that are not complete. -/
theorem mem_unfinished {batch : List Uri} {u : Uri} :
    u ∈ s.unfinished batch
      ↔ u ∈ batch ∧ ∃ d, s.get? u = some d ∧ d.stage < .validated := by
  unfold unfinished stageOf
  rw [Distinct.mem_ofList, List.mem_filter]
  refine and_congr_right fun _ => ?_
  cases s.get? u with
  | none => simp
  | some d => simp

theorem nodup_unfinished (s : Store) (batch : List Uri) :
    (s.unfinished batch).Nodup := Distinct.nodup_ofList _

end Store

namespace Scene

/-- A scene in which nothing is left of failed steps on some
documents. -/
def wiped (us : List Uri) (s : Scene) : Scene :=
  { s with store := s.store.alter fun v d =>
      if v ∈ us then d.clearFailures else d }

/-- Those of some documents whose texts have never been read. -/
def unread (us : List Uri) (s : Scene) : List Uri :=
  us.filter fun u => (s.store.get? u).any (·.content.isNone)

/-- The scene in which the pass of a build over some documents starts. -/
def opened (host : Host) (us : List Uri) (s : Scene) : Scene :=
  reread host (s.unread us) (s.wiped us)

theorem unread_subset (us : List Uri) (s : Scene) : s.unread us ⊆ us :=
  List.filter_sublist.subset

/-- A build is one pass over the unfinished documents of its batch, those
that were projects when it started and the others. -/
theorem buildBatch_eq (host : Host) (s : Scene) (batch : List Uri) :
    s.buildBatch host batch =
      let us := s.store.unfinished batch
      if us.isEmpty then (s, .empty)
      else
        let t := s.opened host us
        let p := Pass.runSplit host (us.filter t.store.isProject)
          (us.filter fun u => !t.store.isProject u) ⟨t, .empty⟩
        (p.scene, p.report) := by
  have hunread : ∀ us : List Uri, (us.filter fun u =>
      ((s.wiped us).store.get? u).any (·.content.isNone)) = s.unread us := by
    intro us
    refine List.filter_congr fun u hu => ?_
    rw [wiped, Store.get?_alter]
    cases s.store.get? u with
    | none => rfl
    | some d => simp only [Option.map_some, if_pos hu]; rfl
  have hwiped : ∀ us : List Uri,
      us.foldl (fun s u => s.modify u Document.clearFailures) s
        = s.wiped us := fun us => foldl_clearFailures us s
  unfold buildBatch opened
  simp only [hwiped, hunread, Pass.split_eq]

end Scene

namespace Pass

variable (host : Host)

/-- Whatever a pass over a batch carries, a build over it does, if
clearing the batch of what failed steps left keeps it. -/
theorem Carries.buildBatch {R : Scene → Scene → Prop} {s : Scene}
    {batch : List Uri} (h : Carries host (s.store.unfinished batch) R)
    (hwiped : R s (s.wiped (s.store.unfinished batch))) :
    R s (s.buildBatch host batch).1 := by
  rw [Scene.buildBatch_eq]
  dsimp only
  split
  · exact h.refl s
  · have hopened := h.reread (s.unread (s.store.unfinished batch))
      (s.unread_subset _) ⟨s.wiped (s.store.unfinished batch), .empty⟩
    exact h.trans hwiped (h.trans hopened (h.runSplit host
      List.filter_sublist.subset List.filter_sublist.subset
      ⟨s.opened host (s.store.unfinished batch), .empty⟩))

/-- A pass changes no document outside its batch. -/
theorem carries_within (batch : List Uri) :
    Carries host batch fun s t => s.store.Within batch t.store where
  refl _ := ⟨rfl, fun _ _ => rfl⟩
  trans := Store.Within.trans
  reread us hus p := by
    rw [store_reread]
    exact Store.within_alter fun u d hu => if_neg fun h => hu (hus h)
  runAll us hus p _ := by
    have hadv := runAll_advance host us p
    exact ⟨hadv.uris, fun u hu =>
      hadv.get?_of_not_mem fun h => hu (hus h)⟩

end Pass

namespace Scene

variable (host : Host) (s : Scene) (batch : List Uri)

/-- A build touches documents, and only unfinished ones of its batch. -/
theorem touches_buildBatch :
    Store.Touches host s.store (s.buildBatch host batch).1.store := by
  refine (Pass.carries_touches host _).buildBatch host ?_
  have hcleared := foldl_clearFailures_renews
    (s.store.unfinished batch) s
  rw [foldl_clearFailures] at hcleared
  exact touches_of_renews host hcleared

/-- A batch works on its unfinished documents only. -/
theorem within_buildBatch :
    s.store.Within (s.store.unfinished batch)
      (s.buildBatch host batch).1.store :=
  (Pass.carries_within host _).buildBatch host <|
    Store.within_alter (f := fun v d =>
      if v ∈ s.store.unfinished batch then d.clearFailures else d)
      fun _ _ hu => if_neg hu

/-- A build only moves forward, and touches only its batch, from any
scene and under any host. -/
theorem buildBatch_onward :
    s.store.Onward batch (s.buildBatch host batch).1.store := by
  have hwithin := s.within_buildBatch host batch
  obtain ⟨huris, heach⟩ := Store.touches_each Document.Onward.refl
    (fun _ _ _ => Document.Onward.trans)
    (fun _ _ _ _ => Store.Touch.onward) (s.touches_buildBatch host batch)
  refine ⟨huris, heach, fun u hu => ?_, fun u d hd hstage => ?_⟩
  · exact hwithin.others u fun h => hu (Store.mem_unfinished.1 h).1
  · rw [hwithin.others u, hd]
    intro h
    obtain ⟨-, x, hx, hlt⟩ := Store.mem_unfinished.1 h
    rw [Option.some.inj (hx.symm.trans hd), hstage] at hlt
    exact absurd hlt (by decide)

end Scene

end Purview

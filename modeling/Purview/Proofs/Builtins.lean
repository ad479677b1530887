/-
Builtins are there for good. Whatever is asked of a workspace, under any
hosts, the documents that it was created with are the ones that carry the
mark, they say what they said, and whoever does not see everything sees
all of them but himself (`Workspace.guarded_run`).

None of this is checked in one place. Changes spare a builtin because
they look for the mark first, an invalidation does not look but leaves
everything but the stage and the targets alone, a build reads a text again
that is still the same, and a start passes over the files that would
shadow a builtin. So the mark has to be carried along with what it
protects (`Store.Guards`), since it is the mark that the next change goes
by.

What is remembered of horizons may be out of date, but not in this point:
every horizon that was ever computed has the builtins in it
(`Horizon.Admits`), and the index does nothing with horizons but to
remember and to forget them.
-/
import Purview.Proofs.Notified
import Purview.Proofs.Onward
import Purview.Proofs.Serving

namespace Purview

-- ========================================================= one document

namespace Document

variable {text : String} {d d' : Document}

/-- A builtin as it came: what is known of it is what its text says, the
targets of its references apart. -/
structure Original (text : String) (d : Document) : Prop where
  builtin : d.builtin = true
  version : d.version = 0
  bare : d.bare = some (Content.ofText text).1
  text : d.text = text

/-- A builtin is as it came when it comes. -/
theorem original_ofBuiltin (text : String) :
    (ofBuiltin text).Original text :=
  ⟨rfl, rfl, congrArg some (Content.unlink_ofText text), rfl⟩

/-- Whatever leaves the bare content alone leaves a builtin as it
came. -/
theorem Original.of_alike (h : d.Original text) (halike : d.Alike d')
    (hbare : d'.bare = d.bare) : d'.Original text :=
  ⟨halike.builtin.trans h.builtin, halike.version.trans h.version,
    hbare.trans h.bare, halike.text.trans h.text⟩

/-- Forgetting targets that do not count makes no difference. -/
theorem bare_unlink (d : Document) : d.unlink.bare = d.bare := by
  unfold bare unlink
  cases d.content with
  | none => rfl
  | some c => exact congrArg some c.unlink_unlink

/-- On the way back the content is kept. -/
theorem bare_demote (d : Document) (target : Stage) :
    (d.demote target).bare = d.bare := by
  unfold demote
  split <;> rfl

theorem bare_outdated (d : Document) : d.outdated.bare = d.bare :=
  (d.unlink.bare_demote .changed).trans d.bare_unlink

theorem bare_sentBack (d : Document) : d.sentBack.bare = d.bare := by
  unfold sentBack
  split
  · exact (d.unlink.bare_demote .surveyed).trans d.bare_unlink
  · rfl

/-- Sent back to the very start, a builtin is still as it came. -/
theorem Original.outdated (h : d.Original text) :
    d.outdated.Original text := h.of_alike d.alike_outdated d.bare_outdated

/-- And so it is when it is only to be linked again. -/
theorem Original.sentBack (h : d.Original text) :
    d.sentBack.Original text := h.of_alike d.alike_sentBack d.bare_sentBack

/-- What a build reads of a builtin is what it has said before. -/
theorem Original.touch {host : Host} {s : Store} {u : Uri}
    (h : d.Original text) (ht : s.Touch host u d d') :
    d'.Original text := by
  have honward := ht.onward
  by_cases hstage : d.stage = .changed
  · cases ht with
    | renewed hrenewed =>
      cases hrenewed with
      | cleared => exact h.of_alike honward.alike rfl
      | read =>
        have hbare : d.reread.bare
            = some (Content.ofText d.text).1.unlink := by
          rw [reread_of_changed hstage]
          rfl
        refine h.of_alike honward.alike (hbare.trans ?_)
        rw [Content.unlink_ofText, h.text, h.bare]
    | ended phase i hbase =>
      rw [hbase] at hstage
      cases phase <;> cases hstage
  · exact h.of_alike honward.alike (honward.bare hstage)

end Document

-- ============================================================== horizons

/-- Whether a horizon of a document has the builtins in it, unless it has
everything: all of them but for the document itself, which is not. -/
def Horizon.Admits (builtins : List Uri) (u : Uri) (h : Horizon) : Prop :=
  ∀ seen, h.visible = .only seen →
    u ∉ seen ∧ ∀ b ∈ builtins, b ≠ u → b ∈ seen

/-- Every horizon that is computed takes the builtins in. -/
theorem Horizon.admits_of (s : Store) (builtins : List Uri) (u : Uri) :
    (Horizon.of s builtins u).Admits builtins u := by
  intro seen hseen
  unfold Horizon.of at hseen
  split at hseen
  · cases hseen
  · cases hseen
    simp only [Distinct.mem_union, List.mem_filter, decide_eq_true_eq]
    exact ⟨by simp, fun b hb hne => .inr ⟨hb, hne⟩⟩

namespace Index

variable {i j : Index} {s : Store}

/-- Whatever is remembered has the builtins in it. -/
def Admits (i : Index) : Prop :=
  ∀ e ∈ i.horizons, e.2.Admits i.builtins e.1

/-- Where nothing is remembered, nothing lacks a builtin. -/
theorem admits_clear (i : Index) : i.clear.Admits := List.forall_mem_nil _

theorem Admits.retain (h : i.Admits) (keep : Uri → Horizon → Bool) :
    (i.retain keep).Admits := fun e he => h e (List.mem_filter.1 he).1

/-- What is remembered in addition has been computed. -/
theorem Admits.grows (h : i.Admits) (hg : i.Grows s j) : j.Admits := by
  intro e he
  rw [hg.builtins]
  rcases hg.fresh e he with hold | hnew
  · exact h e hold
  · rw [hnew]
    exact Horizon.admits_of s i.builtins e.1

/-- So is whatever is answered, remembered or not. -/
theorem Admits.look (h : i.Admits) (s : Store) (u : Uri) :
    (i.look s u).2.Admits i.builtins u := by
  cases hu : i.horizons.lookup u with
  | none =>
    rw [look_of_lookup_none hu]
    exact Horizon.admits_of s i.builtins u
  | some x =>
    rw [look_of_lookup_some hu]
    exact h (u, x) (mem_of_lookup hu)

end Index

-- =============================================================== stores

namespace Store

variable {builtins : List SourceFile} {s t : Store}

/-- The builtins are loaded as they came, and nobody else carries the
mark. -/
structure Guards (builtins : List SourceFile) (s : Store) : Prop where
  kept : ∀ u text, lastText builtins u = some text →
    ∃ d, s.get? u = some d ∧ d.Original text
  marked : ∀ u d, s.get? u = some d → d.builtin = true →
    u ∈ Distinct.ofList (builtins.map (·.uri))

/-- The mark tells exactly the builtins from the rest. -/
theorem Guards.isBuiltin_iff (h : s.Guards builtins) {u : Uri} :
    s.isBuiltin u = true ↔ u ∈ Distinct.ofList (builtins.map (·.uri)) := by
  constructor
  · intro hb
    obtain ⟨d, hd, hbuiltin⟩ := (Option.any_eq_true _ _).1 hb
    exact h.marked u d hd hbuiltin
  · intro hu
    obtain ⟨text, htext⟩ := lastText_of_mem hu
    obtain ⟨d, hd, horiginal⟩ := h.kept u text htext
    rw [isBuiltin_of_some hd]
    exact horiginal.builtin

/-- Changes in place that leave marks and builtins alone. -/
theorem Guards.congr (h : s.Guards builtins) (huris : t.uris = s.uris)
    (heach : ∀ u d, s.get? u = some d → ∃ d', t.get? u = some d'
      ∧ d'.builtin = d.builtin
      ∧ ∀ text, d.Original text → d'.Original text) :
    t.Guards builtins := by
  constructor
  · intro u text htext
    obtain ⟨d, hd, horiginal⟩ := h.kept u text htext
    obtain ⟨d', hd', -, hkeeps⟩ := heach u d hd
    exact ⟨d', hd', hkeeps text horiginal⟩
  · intro u d' hd' hb
    have hloaded : u ∈ s.uris := by
      rw [← huris, ← isSome_get?, hd']
      rfl
    obtain ⟨d, hd⟩ := Option.isSome_iff_exists.1
      ((s.isSome_get? u).2 hloaded)
    obtain ⟨x, hx, hmark, -⟩ := heach u d hd
    obtain rfl := Option.some.inj (hx.symm.trans hd')
    exact h.marked u d hd (hmark.symm.trans hb)

theorem Guards.alter (h : s.Guards builtins)
    {f : Uri → Document → Document}
    (hf : ∀ u d, (f u d).builtin = d.builtin
      ∧ ∀ text, d.Original text → (f u d).Original text) :
    (s.alter f).Guards builtins := by
  refine h.congr (s.uris_alter f) fun u d hd => ⟨f u d, ?_, hf u d⟩
  rw [get?_alter, hd]
  rfl

/-- Nobody takes on the mark with a change. -/
theorem isBuiltin_of_revised {c : Change} {d : Document}
    (hd : s.revised c = some d) (hb : d.builtin = true) :
    s.isBuiltin c.uri = true := by
  cases c with
  | edit file =>
    unfold revised at hd
    dsimp only at hd
    split at hd
    · cases hd
      cases hb
    · next x hx =>
      have hx : s.get? (Change.edit file).uri = some x := hx
      rw [isBuiltin_of_some hx]
      cases hbx : x.builtin with
      | true => rfl
      | false =>
        rw [hbx, if_neg Bool.false_ne_true] at hd
        cases hd
        exact hbx.symm.trans (x.alike_outdated.builtin.symm.trans hb)
  | removal u =>
    have hx : s.get? (Change.removal u).uri = some d :=
      (Option.filter_eq_some_iff.1 hd).1
    rw [isBuiltin_of_some hx, hb]

end Store

-- ================================================================ moves

namespace Scene

variable (host : Host) {builtins : List SourceFile} {s : Scene}

/-- A scene in which builtins are guarded, among the documents and in
what is remembered of horizons. -/
structure Guards (builtins : List SourceFile) (s : Scene) : Prop where
  intact : s.Intact
  store : s.store.Guards builtins
  builtins : s.index.builtins = Distinct.ofList (builtins.map (·.uri))
  admits : s.index.Admits

namespace Guards

theorem look (h : s.Guards builtins) {i : Index}
    (hi : s.index.Grows s.store i) :
    ({ s with index := i } : Scene).Guards builtins :=
  ⟨h.intact.look hi, h.store, hi.builtins.trans h.builtins,
    h.admits.grows hi⟩

/-- An invalidation does not look for the mark, and need not. -/
theorem invalidate (h : s.Guards builtins) (u : Uri) :
    (s.invalidate host u).1.Guards builtins := by
  have hstore : (s.invalidate host u).1.store.Guards builtins := by
    rw [store_invalidate]
    refine h.store.alter fun v d => ?_
    split
    · exact ⟨d.alike_outdated.builtin, fun _ => .outdated⟩
    · split
      · exact ⟨d.alike_sentBack.builtin, fun _ => .sentBack⟩
      · exact ⟨rfl, fun _ h => h⟩
  obtain ⟨keep, hindex⟩ : ∃ keep,
      (s.invalidate host u).1.index = s.index.retain keep := by
    cases hd : s.store.get? u with
    | none =>
      rw [invalidate_of_none host hd]
      exact ⟨_, (Index.retain_all s.index).symm⟩
    | some d =>
      rw [index_invalidate host hd]
      split
      · exact ⟨_, Index.clear_eq_retain s.index⟩
      · exact ⟨_, Index.retain_retain s.index _ _⟩
  refine ⟨h.intact.invalidate host u, hstore, ?_, ?_⟩
  · rw [hindex]
    exact h.builtins
  · rw [hindex]
    exact h.admits.retain keep

/-- Nobody who is sent back loses the mark or what it protects. -/
theorem sendBackAll (h : s.Guards builtins) (us : List Uri) :
    (Scene.sendBackAll host us s).1.store.Guards builtins := by
  rw [store_sendBackAll]
  refine h.store.alter fun v d => ?_
  split
  · exact ⟨d.alike_sentBack.builtin, fun _ => .sentBack⟩
  · exact ⟨rfl, fun _ h => h⟩

/-- A change spares the builtins: it goes by the mark. -/
theorem apply (h : s.Guards builtins) (c : Change) :
    (s.apply host c).1.Guards builtins := by
  obtain ⟨keep, hkeep⟩ := index_apply_eq_retain host s c
  have hindex := hkeep s rfl
  refine ⟨h.intact.apply host c, ⟨?_, ?_⟩, ?_, ?_⟩
  · intro u text htext
    obtain ⟨d, hd, horiginal⟩ := h.store.kept u text htext
    rw [get?_apply]
    by_cases hu : u = c.uri
    · subst hu
      refine ⟨d, ?_, horiginal⟩
      rw [if_pos rfl]
      cases c with
      | edit file =>
        have hd : s.store.get? file.uri = some d := hd
        simp [Store.revised, hd, horiginal.builtin]
      | removal u =>
        have hd : s.store.get? u = some d := hd
        simp [Store.revised, hd, horiginal.builtin]
    · rw [if_neg hu, hd]
      refine ⟨_, rfl, ?_⟩
      split
      · exact horiginal.sentBack
      · exact horiginal
  · intro u d hd hb
    rw [get?_apply] at hd
    split at hd
    · next hu =>
      rw [hu]
      exact h.store.isBuiltin_iff.1 (Store.isBuiltin_of_revised hd hb)
    · obtain ⟨x, hx, rfl⟩ := Option.map_eq_some_iff.1 hd
      refine h.store.marked u x hx (Eq.trans ?_ hb)
      split
      · exact x.alike_sentBack.builtin.symm
      · rfl
  · rw [hindex]
    exact h.builtins
  · rw [hindex]
    exact h.admits.retain keep

theorem relinkCandidates (h : s.Guards builtins) (changed : List Uri) :
    (s.relinkCandidates changed).1.Guards builtins :=
  h.look (relinkFrom_grows s.store changed s.store.entries s.index)

theorem prepared (h : s.Guards builtins) (changes : List Change) :
    (s.prepared host changes).Guards builtins := by
  have hchanged : (s.changed host changes).Guards builtins :=
    applyAll_induction host (h.relinkCandidates _)
      fun _ c _ h => h.apply host c
  have hscanned := hchanged.relinkCandidates
    (Distinct.ofList (changes.map Change.uri))
  have hindex := index_prepared host s changes
  refine ⟨h.intact.prepared host changes, hscanned.sendBackAll host _,
    ?_, ?_⟩
  · rw [hindex]
    exact hscanned.builtins
  · rw [hindex]
    exact hscanned.admits

/-- A build leaves the builtins as they came. -/
theorem build (h : s.Guards builtins) :
    (s.build host).1.Guards builtins := by
  obtain ⟨huris, heach⟩ := Store.touches_each
    (R := fun d d' => d'.builtin = d.builtin
      ∧ ∀ text, d.Original text → d'.Original text)
    (fun _ => ⟨rfl, fun _ h => h⟩)
    (fun _ _ _ h h' => ⟨h'.1.trans h.1, fun text hd =>
      h'.2 text (h.2 text hd)⟩)
    (fun _ _ _ _ ht => ⟨ht.alike.builtin, fun _ hd => hd.touch ht⟩)
    (s.touches_buildBatch host s.store.pending)
  refine ⟨h.intact.build host, h.store.congr huris heach,
    (build_builtins host h.intact.faithful).trans h.builtins, ?_⟩
  obtain ⟨hforgets, hkeeps⟩ := build_index host h.intact.faithful
  by_cases hf : s.Forgets host
  · exact s.index.admits_clear.grows (hforgets hf)
  · exact h.admits.grows (hkeeps hf).1

/-- Files that would shadow a builtin are passed over. -/
theorem addInitial (h : s.store.Guards builtins) (file : SourceFile) :
    (Scene.addInitial host s file).store.Guards builtins := by
  constructor
  · intro u text htext
    obtain ⟨d, hd, horiginal⟩ := h.kept u text htext
    have hb := (Store.isBuiltin_of_some hd).trans horiginal.builtin
    rw [get?_addInitial, hb]
    simp only [Bool.true_eq_false, and_false, if_false]
    exact ⟨d, hd, horiginal⟩
  · intro u d hd hb
    rw [get?_addInitial] at hd
    split at hd
    · cases hd
      cases hb
    · exact h.marked u d hd hb

end Guards

end Scene

-- ============================================================= workspaces

namespace Workspace

variable {w : Workspace} {builtins : List SourceFile}

theorem guards_loaded (h : w.scene.Guards builtins) (host : Host)
    (files : List SourceFile) : (w.loaded host files).Guards builtins := by
  have hloaded : (files.foldl (Scene.addInitial host) w.scene).store.Guards
        builtins
      ∧ (files.foldl (Scene.addInitial host) w.scene).index
        = w.scene.index := by
    refine List.foldlRecOn files (Scene.addInitial host)
      (motive := fun s => s.store.Guards builtins
        ∧ s.index = w.scene.index) ⟨h.store, rfl⟩ ?_
    intro s hs file _
    refine ⟨Scene.Guards.addInitial host hs.1 file, Eq.trans ?_ hs.2⟩
    unfold Scene.addInitial
    split <;> rfl
  refine ⟨⟨faithful_loaded h.intact.faithful host files, List.nodup_nil⟩,
    hloaded.1, ?_, Index.admits_clear _⟩
  show (files.foldl (Scene.addInitial host) w.scene).index.builtins = _
  rw [hloaded.2]
  exact h.builtins

/-- A new workspace has its builtins as they came, and no other
document. -/
theorem guards_create (host : Host) (builtins : List SourceFile) :
    (create host builtins).scene.Guards builtins := by
  have hstore : ∀ (files : List SourceFile) (s : Scene),
      let t := files.foldl (Scene.addBuiltin host) s
      t.index.builtins
          = Distinct.union s.index.builtins (files.map (·.uri))
        ∧ ∀ u, t.store.get? u
          = ((lastText files u).map Document.ofBuiltin).or
            (s.store.get? u) := by
    intro files
    induction files with
    | nil => exact fun s => ⟨rfl, fun _ => rfl⟩
    | cons file files ih =>
      intro s
      obtain ⟨hbuiltins, hget⟩ := ih (Scene.addBuiltin host s file)
      refine ⟨?_, fun u => ?_⟩
      · rw [List.foldl_cons, hbuiltins]
        rfl
      · rw [List.foldl_cons, hget, Scene.get?_addBuiltin, lastText_cons]
        cases lastText files u with
        | some text => rfl
        | none => split <;> rfl
  obtain ⟨hbuiltins, hget⟩ := hstore builtins (Scene.empty [])
  have hget : ∀ u, (create host builtins).scene.store.get? u
      = (lastText builtins u).map Document.ofBuiltin := fun u => by
    refine (hget u).trans ?_
    exact Option.or_none
  refine ⟨⟨(sound_create host builtins).faithful, List.nodup_nil⟩,
    ⟨fun u text htext => ?_, fun u d hd _ => ?_⟩, hbuiltins,
    Index.admits_clear _⟩
  · exact ⟨_, by rw [hget, htext]; rfl, Document.original_ofBuiltin text⟩
  · rw [hget] at hd
    obtain ⟨text, htext, -⟩ := Option.map_eq_some_iff.1 hd
    exact mem_of_lastText htext

/-- No request touches a builtin. -/
theorem guards_serve (h : w.scene.Guards builtins) (r : Request) :
    (w.serve r).scene.Guards builtins := by
  have hbegin : (w.scene.begin r.withdrawn).Guards builtins :=
    ⟨⟨h.intact.faithful, h.intact.keyed⟩, h.store, h.builtins, h.admits⟩
  exact serve_induction r hbegin (fun _ _ h hi => h.look hi)
    (fun _ files => guards_loaded (w := w.begin r.withdrawn) hbegin
      r.host files)
    (fun _ u h => h.invalidate r.host u) (fun _ c h => h.apply r.host c)
    (fun _ changes h => h.prepared r.host changes)
    fun _ _ h => h.build r.host

/-- And so no run of requests does. -/
theorem guards_run (h : w.scene.Guards builtins) (rs : List Request) :
    (w.run rs).scene.Guards builtins := by
  induction rs generalizing w with
  | nil => exact h
  | cons r rs ih => exact ih (guards_serve h r)

/-- What a workspace keeps of the builtins that it was created with. -/
structure Guarded (builtins : List SourceFile) (w : Workspace) : Prop where
  fixed : w.builtins = Distinct.ofList (builtins.map (·.uri))
  /-- The loaded documents that carry the mark are the builtins. -/
  marked : ∀ u, w.store.isBuiltin u = true ↔ u ∈ w.builtins
  /-- Each of them is loaded as it came, with the last of its texts. -/
  kept : ∀ u ∈ w.builtins, ∃ text d, lastText builtins u = some text
    ∧ w.store.get? u = some d ∧ d.Original text
  /-- Who does not see everything sees every builtin, and never
  himself. -/
  seen : ∀ u seen, (w.visible u).2 = .only seen →
    u ∉ seen ∧ ∀ b ∈ w.builtins, b ≠ u → b ∈ seen

/-- Builtins are kept, marked and seen wherever requests lead, under any
hosts. -/
theorem guarded_run (host : Host) (builtins : List SourceFile)
    (rs : List Request) :
    ((create host builtins).run rs).Guarded builtins := by
  have h := guards_run (guards_create host builtins) rs
  generalize (create host builtins).run rs = w at h
  refine ⟨h.builtins, fun u => ?_, fun u hu => ?_, fun u seen hseen => ?_⟩
  · rw [show w.builtins = _ from h.builtins]
    exact h.store.isBuiltin_iff
  · rw [show w.builtins = _ from h.builtins] at hu
    obtain ⟨text, htext⟩ := lastText_of_mem hu
    obtain ⟨d, hd, horiginal⟩ := h.store.kept u text htext
    exact ⟨text, d, htext, hd, horiginal⟩
  · exact h.admits.look w.scene.store u seen hseen

end Workspace

end Purview

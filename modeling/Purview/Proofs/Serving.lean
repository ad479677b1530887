/-
What requests keep. A request is made of a few moves: documents are
loaded, changed, made stale and built, and horizons are looked up. What
each of these moves keeps, every request keeps (`serve_induction`). One
such thing is needed wherever builds are followed in detail: documents
are in line with their texts, and no horizon is remembered twice
(`Scene.Intact`).
-/
import Purview.Proofs.Arrival
import Purview.Proofs.Regular

namespace Purview

namespace Workspace

variable {w : Workspace}

/-- What every move of a request keeps, and each of its builds, the
request keeps. -/
theorem serve_induction {P : Scene → Prop} (r : Request)
    (h : P (w.scene.begin r.withdrawn))
    (hlook : ∀ (s : Scene) i, P s → s.index.Grows s.store i →
      P { s with index := i })
    (hloaded : w.gate.isOpen = false → ∀ files,
      P ((w.begin r.withdrawn).loaded r.host files))
    (hinvalidate : ∀ (s : Scene) u, P s → P (s.invalidate r.host u).1)
    (happly : ∀ (s : Scene) c, P s → P (s.apply r.host c).1)
    (hprepared : ∀ (s : Scene) changes, P s →
      P (s.prepared r.host changes))
    (hbuild : ∀ s ∈ w.builds r, P s → P (s.build r.host).1) :
    P (w.serve r).scene := by
  obtain ⟨host, withdrawn, action⟩ := r
  dsimp only at h hloaded hinvalidate happly hprepared hbuild
  cases action with
  | start files =>
    cases hopen : w.gate.isOpen with
    | true =>
      obtain ⟨hbuilds, hserve⟩ := builds_restart host withdrawn files hopen
      rw [hbuilds] at hbuild
      rw [hserve]
      exact hbuild _ List.mem_cons_self (hprepared _ _ h)
    | false =>
      have hfirst := hloaded hopen files
      cases hqueue : w.gate.queue.isEmpty with
      | true =>
        obtain ⟨hbuilds, hserve⟩ :=
          builds_start host withdrawn files hopen hqueue
        rw [hbuilds] at hbuild
        rw [hserve]
        exact hbuild _ List.mem_cons_self hfirst
      | false =>
        obtain ⟨hbuilds, hserve⟩ :=
          builds_start_kept host withdrawn files hopen hqueue
        rw [hbuilds] at hbuild
        rw [hserve]
        have hbuilt := hbuild _ List.mem_cons_self hfirst
        exact hbuild _ (List.mem_cons_of_mem _ List.mem_cons_self)
          (hprepared _ _ hbuilt)
  | put file => exact happly (w.begin withdrawn).scene (.edit file) h
  | remove u => exact happly (w.begin withdrawn).scene (.removal u) h
  | invalidate u => exact hinvalidate (w.begin withdrawn).scene u h
  | build => exact hbuild (w.begin withdrawn).scene List.mem_cons_self h
  | update changes =>
    rw [scene_serve_update]
    exact hbuild ((w.begin withdrawn).scene.prepared host changes)
      List.mem_cons_self (hprepared _ changes h)
  | notify c =>
    unfold serve notify Gate.offer
    cases hopen : w.gate.isOpen with
    | false =>
      simp only [begin, hopen, Bool.false_eq_true, if_false]
      exact h
    | true =>
      simp only [begin, hopen, if_true]
      exact happly _ c h
  | visible u => exact hlook _ _ h (Index.grows_look _ _ u)
  | isAffected u changed => exact hlook _ _ h (Index.grows_look _ _ u)

/-- A workspace that has started does not stop. -/
theorem isOpen_serve (h : w.gate.isOpen = true) (r : Request) :
    (w.serve r).gate.isOpen = true := by
  obtain ⟨host, withdrawn, action⟩ := r
  cases action with
  | start files =>
    show ((w.begin withdrawn).start host files).1.gate.isOpen = true
    rw [start_of_open (w := w.begin withdrawn) host files h]
    exact h
  | notify c =>
    unfold serve notify Gate.offer
    simp only [begin, h, if_true]
    exact h
  | build =>
    simp only [serve, build, gate_withScene]
    exact h
  | update changes =>
    simp only [serve, gate_update]
    exact h
  | _ => exact h

end Workspace

-- ============================================================== intact

namespace Scene

/-- Documents are in line with their texts, and no horizon is remembered
twice. -/
structure Intact (s : Scene) : Prop where
  faithful : s.store.Faithful
  keyed : (s.index.horizons.map Prod.fst).Nodup

namespace Intact

variable (host : Host) {s : Scene}

/-- Looking up a horizon leaves everything in order. -/
theorem look (h : s.Intact) {i : Index} (hi : s.index.Grows s.store i) :
    ({ s with index := i } : Scene).Intact :=
  ⟨h.faithful, hi.keyed h.keyed⟩

theorem invalidate (h : s.Intact) (u : Uri) :
    (s.invalidate host u).1.Intact :=
  ⟨faithful_invalidate host h.faithful u,
    h.keyed.sublist (index_invalidate_sublist host s u).2⟩

/-- So does a change. -/
theorem apply (h : s.Intact) (c : Change) : (s.apply host c).1.Intact :=
  ⟨faithful_apply host h.faithful c,
    h.keyed.sublist (index_apply host s c).2⟩

theorem relinkCandidates (h : s.Intact) (changed : List Uri) :
    (s.relinkCandidates changed).1.Intact :=
  h.look (relinkFrom_grows s.store changed s.store.entries s.index)

theorem prepared (h : s.Intact) (changes : List Change) :
    (s.prepared host changes).Intact := by
  have hchanged : (s.changed host changes).Intact :=
    applyAll_induction host (h.relinkCandidates _)
      fun _ c _ h => h.apply host c
  refine ⟨faithful_prepared host h.faithful changes, ?_⟩
  rw [index_prepared]
  exact (hchanged.relinkCandidates _).keyed

/-- And so does a build, whatever fails in it and wherever it stops. -/
theorem build (h : s.Intact) : (s.build host).1.Intact := by
  refine ⟨build_faithful host h.faithful, ?_⟩
  obtain ⟨hforgets, hkeeps⟩ := build_index host h.faithful
  by_cases hf : s.Forgets host
  · exact (hforgets hf).keyed List.nodup_nil
  · exact (hkeeps hf).1.keyed h.keyed

end Intact

end Scene

namespace Workspace

/-- Whatever is asked for, everything is in order behind it. -/
theorem intact_serve {w : Workspace} (h : w.scene.Intact) (r : Request) :
    (w.serve r).scene.Intact :=
  serve_induction r ⟨h.faithful, h.keyed⟩ (fun _ _ h hi => h.look hi)
    (fun _ files => ⟨faithful_loaded (w := w.begin r.withdrawn) h.faithful
      r.host files, List.nodup_nil⟩)
    (fun _ u h => h.invalidate r.host u) (fun _ c h => h.apply r.host c)
    (fun _ changes h => h.prepared r.host changes)
    fun _ _ h => h.build r.host

/-- Every workspace that requests lead to is intact. -/
theorem intact_run (host : Host) (builtins : List SourceFile)
    (rs : List Request) :
    ((create host builtins).run rs).scene.Intact := by
  have hcreate : (create host builtins).scene.Intact :=
    ⟨(sound_create host builtins).faithful, List.nodup_nil⟩
  generalize create host builtins = w at hcreate
  induction rs generalizing w with
  | nil => exact hcreate
  | cons r rs ih => exact ih (w.serve r) (intact_serve hcreate r)

end Workspace

end Purview

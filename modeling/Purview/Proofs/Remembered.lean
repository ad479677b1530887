/-
What an index remembers. An index is right about some documents if each
horizon in it is the one that would be computed for them
(`Index.Right`); asking it then gives what computing would
(`look_eq_of`). An index is only ever asked, which adds horizons that
are right at the time (`Index.Grows`), or made to forget.

For each change that moves the layout of the documents there is a way
of forgetting after which a right index is right again: the horizons
over a folder for an ordinary document that comes or goes
(`right_insert`, `right_erase`), those whose closure has a project that
is sent back (`right_sentBack`), and all of them where a project is
made or unmade (`right_clear`).
-/
import Purview.Proofs.Layout

namespace Purview.Index

variable {i j k : Index} {s t : Store}

/-- Each horizon is remembered once and is the one that would be
computed. -/
structure Right (i : Index) (s : Store) : Prop where
  keyed : (i.horizons.map Prod.fst).Nodup
  computed : ∀ e ∈ i.horizons, e.2 = Horizon.of s i.builtins e.1

-- =============================================================== asking

/-- One index remembers what another does, and besides that only
horizons that are right. -/
structure Grows (s : Store) (i j : Index) : Prop where
  builtins : j.builtins = i.builtins
  keyed : (i.horizons.map Prod.fst).Nodup → (j.horizons.map Prod.fst).Nodup
  kept : ∀ e ∈ i.horizons, e ∈ j.horizons
  fresh : ∀ e ∈ j.horizons, e ∈ i.horizons
    ∨ e.2 = Horizon.of s i.builtins e.1

theorem Grows.refl (s : Store) (i : Index) : Grows s i i :=
  ⟨rfl, id, fun _ h => h, fun _ h => .inl h⟩

theorem Grows.trans (h : Grows s i j) (h' : Grows s j k) :
    Grows s i k := by
  refine ⟨h'.builtins.trans h.builtins, fun hk => h'.keyed (h.keyed hk),
    fun e he => h'.kept e (h.kept e he), fun e he => ?_⟩
  rcases h'.fresh e he with he | he
  · exact h.fresh e he
  · exact .inr (h.builtins ▸ he)

/-- What is right for some documents is right for others with their
layout. -/
theorem Grows.layout (h : Grows s i j) (hst : Store.SameLayout s t) :
    Grows t i j := by
  refine ⟨h.builtins, h.keyed, h.kept, fun e he => ?_⟩
  rcases h.fresh e he with he | he
  · exact .inl he
  · exact .inr (he.trans (Store.horizon_of_layout hst _ _))

/-- Horizons that are remembered beside a right index are right. -/
theorem Right.grows (h : Right i s) (hg : Grows s i j) : Right j s := by
  refine ⟨hg.keyed h.keyed, fun e he => ?_⟩
  rw [hg.builtins]
  rcases hg.fresh e he with he | he
  · exact h.computed e he
  · exact he

theorem Right.layout (h : Right i s) (hst : Store.SameLayout s t) :
    Right i t := by
  refine ⟨h.keyed, fun e he => ?_⟩
  rw [h.computed e he, Store.horizon_of_layout hst]

/-- A horizon that is not remembered is computed, and remembered. -/
theorem look_of_lookup_none {u : Uri} (h : i.horizons.lookup u = none) :
    i.look s u = ({ i with horizons :=
        i.horizons ++ [(u, Horizon.of s i.builtins u)] },
      Horizon.of s i.builtins u) := by
  unfold look
  rw [h]

theorem look_of_lookup_some {u : Uri} {h : Horizon}
    (hu : i.horizons.lookup u = some h) : i.look s u = (i, h) := by
  unfold look
  rw [hu]

/-- Asking an index adds at most a horizon that is right. -/
theorem grows_look (i : Index) (s : Store) (u : Uri) :
    Grows s i (i.look s u).1 := by
  cases hu : i.horizons.lookup u with
  | some h =>
    rw [look_of_lookup_some hu]
    exact .refl s i
  | none =>
    rw [look_of_lookup_none hu]
    refine ⟨rfl, fun hk => ?_, fun e he => List.mem_append_left _ he,
      fun e he => ?_⟩
    · rw [List.map_append]
      refine List.nodup_append.2 ⟨hk, by simp, ?_⟩
      intro a ha b hb heq
      obtain ⟨e, he, rfl⟩ := List.mem_map.1 ha
      simp only [List.map_cons, List.map_nil, List.mem_singleton] at hb
      have hnone := List.lookup_eq_none_iff.1 hu e he
      rw [heq, hb] at hnone
      simp at hnone
    · rcases List.mem_append.1 he with he | he
      · exact .inl he
      · rw [List.mem_singleton.1 he]
        exact .inr rfl

/-- A right index answers what computing would. -/
theorem look_eq_of (h : Right i s) (u : Uri) :
    (i.look s u).2 = Horizon.of s i.builtins u := by
  cases hu : i.horizons.lookup u with
  | some x =>
    rw [look_of_lookup_some hu]
    exact h.computed _ (mem_of_lookup hu)
  | none => rw [look_of_lookup_none hu]

/-- What an index tells of one document does not hang on what it has
been asked about others. -/
theorem look_look (i : Index) (s : Store) (u v : Uri) :
    ((i.look s u).1.look s v).2 = (i.look s v).2 := by
  cases hu : i.horizons.lookup u with
  | some h => rw [look_of_lookup_some hu]
  | none =>
    rw [look_of_lookup_none hu]
    unfold look
    dsimp only
    rw [List.lookup_append]
    cases hv : i.horizons.lookup v with
    | some h => rfl
    | none =>
      rw [Option.none_or, List.lookup_cons, List.lookup_nil]
      by_cases huv : v = u
      · rw [beq_iff_eq.2 huv, huv]
      · rw [beq_eq_false_iff_ne.2 huv]

/-- Nor does it hang on anything but the layout of the documents. -/
theorem look_layout (i : Index) (hst : Store.SameLayout s t) (u : Uri) :
    (i.look t u).2 = (i.look s u).2 := by
  unfold look
  split
  · rfl
  · exact (Store.horizon_of_layout hst _ _).symm

/-- An index that has been asked, and remembers each horizon once, tells
what it told before. -/
theorem Grows.look (h : Grows s i j)
    (hk : (i.horizons.map Prod.fst).Nodup) (u : Uri) :
    (j.look s u).2 = (i.look s u).2 := by
  cases hi : i.horizons.lookup u with
  | some x =>
    have hj := lookup_of_mem (h.keyed hk) (h.kept _ (mem_of_lookup hi))
    rw [look_of_lookup_some hi, look_of_lookup_some hj]
  | none =>
    rw [look_of_lookup_none hi]
    cases hj : j.horizons.lookup u with
    | none => rw [look_of_lookup_none hj, h.builtins]
    | some x =>
      rw [look_of_lookup_some hj]
      rcases h.fresh _ (mem_of_lookup hj) with he | he
      · rw [lookup_of_mem hk he] at hi
        cases hi
      · exact he

-- =========================================================== forgetting

/-- Forgetting twice is forgetting whatever fails either test. -/
theorem retain_retain (i : Index) (p q : Uri → Horizon → Bool) :
    (i.retain p).retain q = i.retain fun u h => p u h && q u h := by
  unfold retain
  simp only [List.filter_filter, Bool.and_comm]

theorem clear_eq_retain (i : Index) :
    i.clear = i.retain fun _ _ => false := by
  unfold clear retain
  rw [List.filter_false]

theorem retain_all (i : Index) : (i.retain fun _ _ => true) = i := by
  unfold retain
  rw [List.filter_true]

/-- What is left after forgetting is right for other documents if each
horizon that is kept has not changed. -/
theorem Right.retain {keep : Uri → Horizon → Bool} (h : Right i s)
    (hkeep : ∀ u, keep u (Horizon.of s i.builtins u) →
      Horizon.of t i.builtins u = Horizon.of s i.builtins u) :
    Right (i.retain keep) t := by
  refine ⟨h.keyed.sublist (List.filter_sublist.map Prod.fst), ?_⟩
  intro e he
  obtain ⟨he, hk⟩ := List.mem_filter.1 he
  rw [h.computed e he] at hk ⊢
  exact (hkeep e.1 hk).symm

/-- Forgetting alone keeps an index right. -/
theorem Right.evict (h : Right i s) (u : Uri) : Right (i.evict u) s :=
  h.retain fun _ _ => rfl

/-- An index that remembers nothing is right. -/
theorem right_clear (i : Index) (s : Store) : Right i.clear s :=
  ⟨List.nodup_nil, fun _ he => nomatch he⟩

/-- An ordinary document is loaded under a new identity. -/
theorem right_insert (h : Right i s) {u : Uri} (hu : u ∉ s.uris)
    {d : Document} (hd : d.descriptor? = none) :
    Right (i.evictCovering u) (s.insert u d) := by
  refine h.retain fun v hv => ?_
  exact Store.horizon_insert hu hd _ (by simpa using hv)

/-- An ordinary document is dropped. -/
theorem right_erase (h : Right i s) {u : Uri}
    (hu : ∀ d, s.get? u = some d → d.descriptor? = none) :
    Right (i.evictCovering u) (s.erase u) := by
  refine h.retain fun v hv => ?_
  exact Store.horizon_erase hu _ (by simpa using hv)

/-- Projects are sent back. -/
theorem right_sentBack (h : Right i s) {us : List Uri}
    (huris : t.uris = s.uris)
    (hprojects : t.projects = s.projects.map (Project.sentBack us)) :
    Right (i.evictClosures us) t := by
  refine h.retain fun v hv => ?_
  refine Store.horizon_sentBack huris hprojects _ fun p hp hpu => ?_
  have hany : us.any (· ∈ (Horizon.of s i.builtins v).closure) = true :=
    List.any_eq_true.2 ⟨p, hpu, by simpa using hp⟩
  rw [hany] at hv
  exact absurd hv (by decide)

end Purview.Index

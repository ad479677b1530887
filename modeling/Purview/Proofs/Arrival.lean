/-
What becomes of changes that arrive before a workspace has started.
Which documents are loaded and with which texts is a table that changes
act on one after another (`Change.effect`), and nothing else acts on
it: what a change sends back keeps its text, and so does all that a
build touches. So a change that is made at once takes effect in the
order of arrival (`texts_notices`).

The changes that were kept back are made as one batch, and a batch makes
removals first. Every one of them still takes effect once, but in
another order, and the order counts for one thing only: what was edited
and then removed is edited last (`Change.revoked`). Apart from that the
table is the one that arrival order gives (`queued_texts_iff`).
-/
import Purview.Proofs.Start
import Purview.Proofs.Touch

namespace Purview

-- ================================================================ tables

/-- The text that a change gives to its document. -/
def Change.text? : Change → Option String
  | edit file => some file.text
  | removal _ => none

/-- A table of texts after a change. Some documents are fixed, and a
change to one of them does nothing. -/
def Change.effect (fixed : Uri → Bool) (texts : Uri → Option String)
    (c : Change) (u : Uri) : Option String :=
  if u = c.uri ∧ fixed u = false then c.text? else texts u

/-- Whether the last of some changes to a document is its removal,
although the document is edited before. -/
def Change.revoked (changes : List Change) (u : Uri) : Bool :=
  let own := changes.filter (·.uri = u)
  own.getLast?.any Change.isRemoval && own.any (!·.isRemoval)

namespace Change

variable (fixed : Uri → Bool)

/-- The last change to a document decides. -/
theorem foldl_effect (changes : List Change)
    (texts : Uri → Option String) {u : Uri} (hu : fixed u = false) :
    changes.foldl (effect fixed) texts u
      = (((changes.filter (·.uri = u)).getLast?).map text?).getD
        (texts u) := by
  induction changes generalizing texts with
  | nil => rfl
  | cons c changes ih =>
    rw [List.foldl_cons, ih, List.filter_cons]
    by_cases hc : c.uri = u
    · rw [if_pos (decide_eq_true hc), List.getLast?_cons]
      have hown : effect fixed texts c u = c.text? :=
        if_pos ⟨hc.symm, hu⟩
      rw [hown]
      cases (changes.filter (·.uri = u)).getLast? <;> rfl
    · rw [if_neg (by simpa using hc)]
      have hother : effect fixed texts c u = texts u :=
        if_neg fun h => hc h.1.symm
      rw [hother]

/-- Nothing happens to what is fixed. -/
theorem foldl_effect_fixed (changes : List Change)
    (texts : Uri → Option String) {u : Uri} (hu : fixed u = true) :
    changes.foldl (effect fixed) texts u = texts u := by
  induction changes generalizing texts with
  | nil => rfl
  | cons c changes ih =>
    rw [List.foldl_cons, ih]
    exact if_neg fun h => absurd h.2 (by rw [hu]; decide)

/-- The text that a removal or an edit gives. -/
theorem text?_eq_none_iff {c : Change} :
    c.text? = none ↔ c.isRemoval = true := by
  cases c <;> simp [text?, isRemoval]

end Change

namespace Scene

theorem ordered_perm (changes : List Change) :
    (ordered changes).Perm changes :=
  List.filter_append_perm Change.isRemoval changes

/-- Of the changes to a document, the edits come last. -/
theorem filter_ordered (changes : List Change) (u : Uri) :
    (ordered changes).filter (·.uri = u)
      = ordered (changes.filter (·.uri = u)) := by
  unfold ordered
  rw [List.filter_append, List.filter_comm,
    List.filter_comm (p := fun c : Change => decide (c.uri = u))]

/-- Which of some changes to one document comes last, in arrival order
and with removals first. -/
theorem getLast?_ordered_text? (own : List Change) :
    (ordered own).getLast?.map Change.text? = own.getLast?.map Change.text?
      ↔ (own.getLast?.any Change.isRemoval
          && own.any (!·.isRemoval)) = false := by
  unfold ordered
  rw [List.getLast?_append]
  rcases List.eq_nil_or_concat own with rfl | ⟨init, c, rfl⟩
  · simp
  rw [List.concat_eq_append, List.getLast?_concat, List.filter_append,
    List.filter_append]
  cases hc : c.isRemoval with
  | false =>
    -- The last change is an edit, so it is the last edit.
    simp [hc]
  | true =>
    have hnone : c.text? = none := Change.text?_eq_none_iff.2 hc
    have hlast : [c].filter (!·.isRemoval) = []
        ∧ [c].filter Change.isRemoval = [c] := by simp [hc]
    rw [hlast.1, hlast.2, List.append_nil, List.getLast?_concat]
    cases he : (init.filter (!·.isRemoval)).getLast? with
    | none =>
      have hnil : ∀ x ∈ init, x.isRemoval = true := by
        simpa using List.getLast?_eq_none_iff.1 he
      simpa [hc] using hnil
    | some e =>
      have hmem := List.mem_filter.1 (List.mem_of_getLast? he)
      have hedit : e.text? ≠ none := by
        rw [ne_eq, Change.text?_eq_none_iff]
        simpa using hmem.2
      have hany : init.any (!·.isRemoval) = true :=
        List.any_eq_true.2 ⟨e, hmem⟩
      simp [hc, hnone, hedit, hany]

/-- Making removals first matters exactly for what is revoked. -/
theorem foldl_ordered_iff (fixed : Uri → Bool) (changes : List Change)
    (texts : Uri → Option String) :
    (ordered changes).foldl (Change.effect fixed) texts
        = changes.foldl (Change.effect fixed) texts ↔
      ∀ u, fixed u = false → Change.revoked changes u = false := by
  have hpoint : ∀ u, fixed u = false →
      ((ordered changes).foldl (Change.effect fixed) texts u
          = changes.foldl (Change.effect fixed) texts u ↔
        Change.revoked changes u = false) := by
    intro u hu
    rw [Change.foldl_effect fixed _ _ hu, Change.foldl_effect fixed _ _ hu,
      filter_ordered]
    unfold Change.revoked
    dsimp only
    rw [← getLast?_ordered_text?]
    generalize changes.filter (·.uri = u) = own
    -- A document is named in the one order if it is in the other.
    cases hown : own.getLast? with
    | none =>
      rw [List.getLast?_eq_none_iff.1 hown]
      simp [ordered]
    | some c =>
      have hne : ordered own ≠ [] := by
        intro hnil
        rw [((ordered_perm own).symm.trans (hnil ▸ .refl _)).eq_nil]
          at hown
        cases hown
      cases hlast : (ordered own).getLast? with
      | none => exact absurd (List.getLast?_eq_none_iff.1 hlast) hne
      | some e => simp
  constructor
  · intro h u hu
    exact (hpoint u hu).1 (congrFun h u)
  · intro h
    funext u
    cases hu : fixed u with
    | false => exact (hpoint u hu).2 (h u hu)
    | true =>
      rw [Change.foldl_effect_fixed fixed _ _ hu,
        Change.foldl_effect_fixed fixed _ _ hu]

end Scene

-- ============================================================= documents

namespace Store

/-- The texts of the loaded documents, apart from the builtins. -/
def texts (s : Store) (u : Uri) : Option String :=
  ((s.get? u).filter (!·.builtin)).map (·.text)

variable {s t : Store} {u : Uri} {d : Document}

theorem texts_of_none (h : s.get? u = none) : s.texts u = none := by
  unfold texts
  rw [h]
  rfl

theorem texts_of_some (h : s.get? u = some d) :
    s.texts u = if d.builtin then none else some d.text := by
  unfold texts
  rw [h]
  cases hb : d.builtin <;> simp [hb]

theorem isBuiltin_of_none (h : s.get? u = none) :
    s.isBuiltin u = false := by
  unfold isBuiltin
  rw [h]
  rfl

theorem isBuiltin_of_some (h : s.get? u = some d) :
    s.isBuiltin u = d.builtin := by
  unfold isBuiltin
  rw [h]
  rfl

/-- A change to a document that is not loaded. -/
theorem revised_of_none {c : Change} (h : s.get? c.uri = none) :
    s.revised c = c.text?.map Document.read := by
  cases c with
  | edit file =>
    have h : s.get? file.uri = none := h
    simp only [revised, h]
    rfl
  | removal u =>
    have h : s.get? u = none := h
    simp only [revised, h]
    rfl

/-- A change to a builtin. -/
theorem revised_of_builtin {c : Change} (h : s.get? c.uri = some d)
    (hb : d.builtin = true) : s.revised c = some d := by
  cases c with
  | edit file =>
    have h : s.get? file.uri = some d := h
    simp only [revised, h, hb, if_true]
  | removal u =>
    have h : s.get? u = some d := h
    simp only [revised, h, Option.filter_some, hb, if_true]

/-- A change to a loaded document. -/
theorem revised_of_loaded {c : Change} (h : s.get? c.uri = some d)
    (hb : d.builtin = false) :
    s.revised c = c.text?.map d.outdated.setText := by
  cases c with
  | edit file =>
    have h : s.get? file.uri = some d := h
    simp only [revised, h, hb, Bool.false_eq_true, if_false]
    rfl
  | removal u =>
    have h : s.get? u = some d := h
    simp only [revised, h, Option.filter_some, hb, Bool.false_eq_true,
      if_false]
    rfl

/-- Documents that are alike have the same texts and marks. -/
theorem Alike.texts (h : s.Alike t) : t.texts = s.texts
    ∧ t.isBuiltin = s.isBuiltin := by
  have hpoint : ∀ u, t.texts u = s.texts u
      ∧ t.isBuiltin u = s.isBuiltin u := by
    intro u
    cases hd : s.get? u with
    | none =>
      have ht := get?_none_of_uris h.uris hd
      rw [texts_of_none hd, texts_of_none ht, isBuiltin_of_none hd,
        isBuiltin_of_none ht]
      exact ⟨rfl, rfl⟩
    | some d =>
      obtain ⟨d', hd', halike⟩ := h.each u d hd
      rw [texts_of_some hd, texts_of_some hd', isBuiltin_of_some hd,
        isBuiltin_of_some hd', halike.builtin, halike.text]
      exact ⟨rfl, rfl⟩
  exact ⟨funext fun u => (hpoint u).1, funext fun u => (hpoint u).2⟩

end Store

namespace Scene

variable (host : Host)

/-- A change takes effect on the document that it names, unless that is
a builtin. -/
theorem texts_apply_self (s : Scene) (c : Change) :
    (s.apply host c).1.store.texts c.uri
        = c.effect s.store.isBuiltin s.store.texts c.uri
      ∧ (s.apply host c).1.store.isBuiltin c.uri
        = s.store.isBuiltin c.uri := by
  have hget := get?_apply host s c c.uri
  rw [if_pos rfl] at hget
  unfold Change.effect
  cases hd : s.store.get? c.uri with
  | none =>
    rw [Store.revised_of_none hd] at hget
    rw [Store.isBuiltin_of_none hd, if_pos ⟨rfl, rfl⟩]
    unfold Store.texts Store.isBuiltin
    rw [hget]
    cases c.text? <;> exact ⟨rfl, rfl⟩
  | some d =>
    rw [Store.isBuiltin_of_some hd, Store.texts_of_some hd]
    cases hb : d.builtin with
    | true =>
      rw [Store.revised_of_builtin hd hb] at hget
      rw [Store.texts_of_some hget, Store.isBuiltin_of_some hget, hb]
      have hfixed : ¬(c.uri = c.uri ∧ true = false) := fun h => nomatch h.2
      rw [if_neg hfixed]
      exact ⟨rfl, rfl⟩
    | false =>
      rw [Store.revised_of_loaded hd hb] at hget
      rw [if_pos ⟨rfl, rfl⟩]
      cases htext : c.text? with
      | none =>
        rw [htext] at hget
        exact ⟨Store.texts_of_none hget, Store.isBuiltin_of_none hget⟩
      | some text =>
        rw [htext] at hget
        have hout : (d.outdated.setText text).builtin = false :=
          d.alike_outdated.builtin.trans hb
        rw [Store.texts_of_some hget, Store.isBuiltin_of_some hget, hout]
        exact ⟨rfl, rfl⟩

/-- A change leaves the other texts alone. -/
theorem texts_apply_of_ne (s : Scene) {c : Change} {u : Uri}
    (hu : u ≠ c.uri) :
    (s.apply host c).1.store.texts u = s.store.texts u
      ∧ (s.apply host c).1.store.isBuiltin u = s.store.isBuiltin u := by
  have hget := get?_apply host s c u
  rw [if_neg hu] at hget
  cases hd : s.store.get? u with
  | none =>
    rw [hd] at hget
    rw [Store.texts_of_none hd, Store.texts_of_none hget,
      Store.isBuiltin_of_none hd, Store.isBuiltin_of_none hget]
    exact ⟨rfl, rfl⟩
  | some d =>
    have halike : d.Alike (if u ∈ s.store.recalled c
        then d.sentBack else d) := by
      split
      · exact d.alike_sentBack
      · exact ⟨rfl, rfl, rfl⟩
    rw [hd] at hget
    rw [Store.texts_of_some hd, Store.texts_of_some hget,
      Store.isBuiltin_of_some hd, Store.isBuiltin_of_some hget,
      halike.builtin, halike.text]
    exact ⟨rfl, rfl⟩

/-- A change takes effect on the texts. -/
theorem texts_apply (s : Scene) (c : Change) :
    (s.apply host c).1.store.texts
        = c.effect s.store.isBuiltin s.store.texts
      ∧ (s.apply host c).1.store.isBuiltin = s.store.isBuiltin := by
  have hpoint : ∀ u, (s.apply host c).1.store.texts u
        = c.effect s.store.isBuiltin s.store.texts u
      ∧ (s.apply host c).1.store.isBuiltin u = s.store.isBuiltin u := by
    intro u
    by_cases hu : u = c.uri
    · subst hu
      exact texts_apply_self host s c
    · unfold Change.effect
      rw [if_neg fun h => hu h.1]
      exact texts_apply_of_ne host s hu
  exact ⟨funext fun u => (hpoint u).1, funext fun u => (hpoint u).2⟩

/-- Changes that are made one after another. -/
theorem texts_foldl_apply (changes : List Change) (s : Scene) :
    let t := changes.foldl (fun s c => (s.apply host c).1) s
    t.store.texts
        = changes.foldl (Change.effect s.store.isBuiltin) s.store.texts
      ∧ t.store.isBuiltin = s.store.isBuiltin := by
  induction changes generalizing s with
  | nil => exact ⟨rfl, rfl⟩
  | cons c changes ih =>
    obtain ⟨htexts, hbuiltin⟩ := texts_apply host s c
    obtain ⟨htexts', hbuiltin'⟩ := ih (s.apply host c).1
    rw [hbuiltin, htexts] at htexts'
    exact ⟨htexts', hbuiltin'.trans hbuiltin⟩

/-- A batch makes all removals before it makes an edit. -/
theorem texts_update {s : Scene} (hs : s.store.Faithful)
    (changes : List Change) :
    (s.update host changes).1.store.texts
        = (ordered changes).foldl (Change.effect s.store.isBuiltin)
          s.store.texts
      ∧ (s.update host changes).1.store.isBuiltin
        = s.store.isBuiltin := by
  have hrelinked : (s.changed host changes).store.Alike
      (s.prepared host changes).store := by
    rw [store_prepared]
    refine Store.alike_alter fun v d _ => ?_
    split
    · exact d.alike_sentBack
    · exact ⟨rfl, rfl, rfl⟩
  have hbuilt := alike_build host (faithful_prepared host hs changes)
  obtain ⟨htexts, hbuiltin⟩ := (hrelinked.trans hbuilt).texts
  have hchanged := texts_foldl_apply host (ordered changes)
    (s.relinkCandidates (Distinct.ofList (changes.map Change.uri))).1
  rw [← applyAll_eq] at hchanged
  rw [update_eq]
  exact ⟨htexts.trans hchanged.1, hbuiltin.trans hchanged.2⟩

/-- Handing in a document is an edit of what is not there. -/
theorem texts_addInitial (s : Scene) (file : SourceFile) :
    (addInitial host s file).store.texts
        = (Change.edit file).effect s.store.isBuiltin s.store.texts
      ∧ (addInitial host s file).store.isBuiltin
        = s.store.isBuiltin := by
  refine ⟨funext fun u => ?_, funext (isBuiltin_addInitial host s file)⟩
  have hget := get?_addInitial host s file u
  unfold Change.effect Change.uri
  by_cases h : u = file.uri ∧ s.store.isBuiltin u = false
  · rw [if_pos h] at hget
    rw [Store.texts_of_some hget, if_pos h]
    rfl
  · rw [if_neg h] at hget
    rw [if_neg h]
    unfold Store.texts
    rw [hget]

end Scene

-- ============================================================ workspaces

namespace Workspace

/-- Notices of changes. -/
def notices (host : Host) (changes : List Change) : List Request :=
  changes.map fun c => ⟨host, false, .notify c⟩

/-- The identities that belong to builtins. -/
def reserved (builtins : List SourceFile) (u : Uri) : Bool :=
  decide (u ∈ builtins.map (·.uri))

/-- The texts once documents have been handed in and changes have been
made, one after another. -/
def arrived (builtins files : List SourceFile) (changes : List Change) :
    Uri → Option String :=
  (files.map Change.edit ++ changes).foldl
    (Change.effect (reserved builtins)) fun _ => none

variable {w : Workspace} (host : Host)

/-- A workspace that has not started keeps every change. -/
theorem run_notices_closed (h : w.gate.isOpen = false)
    (changes : List Change) :
    (w.run (notices host changes)).gate
        = ⟨false, w.gate.queue ++ changes⟩
      ∧ (w.run (notices host changes)).store = w.store := by
  induction changes generalizing w with
  | nil =>
    refine ⟨?_, rfl⟩
    rw [List.append_nil, ← h]
    rfl
  | cons c changes ih =>
    have hserve : w.serve ⟨host, false, .notify c⟩
        = ⟨w.scene.begin false, ⟨false, w.gate.queue ++ [c]⟩⟩ := by
      unfold serve notify Gate.offer
      simp only [begin, h, Bool.false_eq_true, if_false]
    have ih := ih (w := w.serve ⟨host, false, .notify c⟩) (by rw [hserve])
    refine ⟨ih.1.trans ?_, ih.2.trans ?_⟩
    · rw [hserve, List.append_assoc]
      rfl
    · rw [hserve]
      rfl

/-- A request for an update ends with the build of what it has
prepared. -/
theorem scene_serve_update (withdrawn : Bool) (changes : List Change) :
    (w.serve ⟨host, withdrawn, .update changes⟩).scene
      = (((w.begin withdrawn).scene.prepared host changes).build host).1 := by
  simp only [serve, scene_update]

/-- A workspace that has started makes a change at once. -/
theorem serve_notice_open (h : w.gate.isOpen = true) (c : Change) :
    w.serve ⟨host, false, .notify c⟩
      = ⟨((w.scene.begin false).apply host c).1, w.gate⟩ := by
  unfold serve notify Gate.offer
  simp only [begin, h, if_true]
  rfl

/-- So it does with one change after another. -/
theorem texts_notices (h : w.gate.isOpen = true)
    (changes : List Change) :
    (w.run (notices host changes)).store.texts
      = changes.foldl (Change.effect w.store.isBuiltin) w.store.texts := by
  induction changes generalizing w with
  | nil => rfl
  | cons c changes ih =>
    have hserve := serve_notice_open host h c
    obtain ⟨htexts, hbuiltin⟩ :=
      Scene.texts_apply host (w.scene.begin false) c
    have ih := ih (w := w.serve ⟨host, false, .notify c⟩)
      (by rw [hserve]; exact h)
    have hstore : (w.serve ⟨host, false, .notify c⟩).store
        = ((w.scene.begin false).apply host c).1.store := by
      rw [hserve]
      rfl
    rw [hstore, hbuiltin, htexts] at ih
    exact ih

/-- The builtins are marked as such, and nothing else is loaded. -/
theorem texts_create (builtins : List SourceFile) :
    (create host builtins).store.texts = (fun _ => none)
      ∧ (create host builtins).store.isBuiltin = reserved builtins := by
  have hstep : ∀ (files : List SourceFile) (s : Scene),
      (∀ u d, s.store.get? u = some d → d.builtin = true) →
      let t := files.foldl (Scene.addBuiltin host) s
      (∀ u d, t.store.get? u = some d → d.builtin = true)
      ∧ t.store.uris
        = Distinct.union s.store.uris (files.map (·.uri)) := by
    intro files
    induction files with
    | nil => exact fun s h => ⟨h, rfl⟩
    | cons file files ih =>
      intro s h
      have hfile : ∀ u d, (Scene.addBuiltin host s file).store.get? u
          = some d → d.builtin = true := by
        intro u d hd
        rw [Scene.get?_addBuiltin] at hd
        split at hd
        · cases hd; rfl
        · exact h u d hd
      obtain ⟨hmarked, huris⟩ := ih _ hfile
      refine ⟨hmarked, huris.trans ?_⟩
      rw [Scene.uris_addBuiltin]
      rfl
  obtain ⟨hmarked, huris⟩ := hstep builtins (Scene.empty [])
    fun u d hd => by cases hd
  have hmem : ∀ u, u ∈ (create host builtins).store.uris
      ↔ u ∈ builtins.map (·.uri) := by
    intro u
    show u ∈ (builtins.foldl (Scene.addBuiltin host)
      (Scene.empty [])).store.uris ↔ _
    rw [huris, Distinct.mem_union]
    exact ⟨fun h => h.resolve_left List.not_mem_nil, .inr⟩
  have hpoint : ∀ u, (create host builtins).store.texts u = none
      ∧ (create host builtins).store.isBuiltin u
        = reserved builtins u := by
    intro u
    unfold reserved
    cases hd : (create host builtins).store.get? u with
    | none =>
      have hu := mt (hmem u).2 ((Store.get?_eq_none _ u).1 hd)
      rw [Store.texts_of_none hd, Store.isBuiltin_of_none hd,
        decide_eq_false hu]
      exact ⟨rfl, rfl⟩
    | some d =>
      have hu := (hmem u).1
        ((Store.isSome_get? _ u).1 (by rw [hd]; rfl))
      have hb : d.builtin = true := hmarked u d hd
      rw [Store.texts_of_some hd, Store.isBuiltin_of_some hd, hb,
        decide_eq_true hu]
      exact ⟨rfl, rfl⟩
  exact ⟨funext fun u => (hpoint u).1, funext fun u => (hpoint u).2⟩

/-- The documents of a start, before anything is built. -/
theorem texts_loaded (w : Workspace) (files : List SourceFile) :
    (w.loaded host files).store.texts
        = (files.map Change.edit).foldl
          (Change.effect w.store.isBuiltin) w.store.texts
      ∧ (w.loaded host files).store.isBuiltin = w.store.isBuiltin := by
  have hstep : ∀ s : Scene,
      let t := files.foldl (Scene.addInitial host) s
      t.store.texts = (files.map Change.edit).foldl
          (Change.effect s.store.isBuiltin) s.store.texts
        ∧ t.store.isBuiltin = s.store.isBuiltin := by
    induction files with
    | nil => exact fun s => ⟨rfl, rfl⟩
    | cons file files ih =>
      intro s
      obtain ⟨htexts, hbuiltin⟩ := Scene.texts_addInitial host s file
      obtain ⟨htexts', hbuiltin'⟩ := ih (Scene.addInitial host s file)
      rw [hbuiltin, htexts] at htexts'
      exact ⟨htexts', hbuiltin'.trans hbuiltin⟩
  exact hstep w.scene

/-- A start, with the changes kept back following as one batch. -/
theorem texts_start (hw : w.store.Faithful)
    (h : w.gate.isOpen = false) (files : List SourceFile) :
    (w.start host files).1.store.texts
        = (files.map Change.edit ++ Scene.ordered w.gate.queue).foldl
          (Change.effect w.store.isBuiltin) w.store.texts
      ∧ (w.start host files).1.store.isBuiltin = w.store.isBuiltin
      ∧ (w.start host files).1.gate = ⟨true, []⟩ := by
  have hloaded := faithful_loaded hw host files
  obtain ⟨htexts, hbuiltin⟩ := texts_loaded host w files
  obtain ⟨htexts₁, hbuiltin₁⟩ := (Scene.alike_build host hloaded).texts
  rw [htexts] at htexts₁
  rw [hbuiltin] at hbuiltin₁
  rw [gate_start host files h]
  cases hqueue : w.gate.queue.isEmpty with
  | true =>
    rw [start_of_closed host files h, List.isEmpty_iff.1 hqueue]
    refine ⟨?_, hbuiltin₁, rfl⟩
    rw [show Scene.ordered [] = [] from rfl, List.append_nil]
    exact htexts₁
  | false =>
    obtain ⟨htexts₂, hbuiltin₂⟩ := Scene.texts_update host
      (Scene.build_faithful host hloaded) w.gate.queue
    rw [htexts₁, hbuiltin₁, Scene.update_eq] at htexts₂
    rw [hbuiltin₁, Scene.update_eq] at hbuiltin₂
    rw [store, scene_start host files h hqueue, List.foldl_append]
    exact ⟨htexts₂, hbuiltin₂, rfl⟩

/-- What is kept back until a workspace starts takes effect once, but
removals first; what arrives behind the start takes effect in the order
of arrival. The documents and their texts are the same exactly if no
document is edited and then removed for good. -/
theorem queued_texts_iff (h₀ h₁ h₂ : Host) (withdrawn : Bool)
    (builtins files : List SourceFile) (changes : List Change) :
    let begun : Request := ⟨h₂, withdrawn, .start files⟩
    let early := (create h₀ builtins).run (notices h₁ changes ++ [begun])
    let late := (create h₀ builtins).run (begun :: notices h₁ changes)
    early.gate = ⟨true, []⟩
    ∧ (Scene.ordered changes).Perm changes
    ∧ early.store.texts = arrived builtins files (Scene.ordered changes)
    ∧ late.store.texts = arrived builtins files changes
    ∧ (early.store.texts = late.store.texts ↔
      ∀ u, reserved builtins u = false →
        Change.revoked changes u = false) := by
  intro begun early late
  have hsound : (create h₀ builtins).store.Faithful :=
    (sound_create h₀ builtins).1
  obtain ⟨hempty, hreserved⟩ := texts_create h₀ builtins
  -- Before the start: nothing happens to the documents.
  let waiting := (create h₀ builtins).run (notices h₁ changes)
  obtain ⟨hqueue, hkept⟩ :=
    run_notices_closed (w := create h₀ builtins) h₁ rfl changes
  have hqueue : waiting.gate = ⟨false, changes⟩ := hqueue
  have hkept : (waiting.begin withdrawn).store
      = (create h₀ builtins).store := hkept
  have hearly : early = ((waiting.begin withdrawn).start h₂ files).1 := by
    show run _ _ = _
    rw [run, List.foldl_append]
    rfl
  obtain ⟨htexts, -, hgate⟩ := texts_start (w := waiting.begin withdrawn)
    h₂ (hkept ▸ hsound) (congrArg Gate.isOpen hqueue) files
  rw [hkept, hempty, hreserved,
    show (waiting.begin withdrawn).gate = _ from hqueue, ← hearly]
    at htexts
  rw [← hearly] at hgate
  -- Behind the start: each change is made when it arrives.
  let opened := ((create h₀ builtins).begin withdrawn).start h₂ files
  obtain ⟨hfiles, hmarks, hopen⟩ := texts_start
    (w := (create h₀ builtins).begin withdrawn) h₂ hsound rfl files
  have hlate := texts_notices (w := opened.1) h₁
    (congrArg Gate.isOpen hopen) changes
  have hlate : late.store.texts
      = changes.foldl (Change.effect opened.1.store.isBuiltin)
        opened.1.store.texts := hlate
  have hcreated : ((create h₀ builtins).begin withdrawn).store.texts
      = (fun _ => none)
    ∧ ((create h₀ builtins).begin withdrawn).store.isBuiltin
      = reserved builtins := ⟨hempty, hreserved⟩
  rw [hmarks, hfiles, hcreated.1, hcreated.2] at hlate
  have hnone : Scene.ordered
      ((create h₀ builtins).begin withdrawn).gate.queue = [] := rfl
  rw [hnone, List.append_nil, ← List.foldl_append] at hlate
  refine ⟨hgate, Scene.ordered_perm changes, htexts, hlate, ?_⟩
  rw [htexts, hlate, List.foldl_append, List.foldl_append]
  exact Scene.foldl_ordered_iff _ changes _

/-- A document that is edited and then removed before the start is
there behind it. -/
theorem not_arrived_revoked :
    let u := Uri.ofString "/u.sysw"
    let changes : List Change := [.edit ⟨u, "def A;"⟩, .removal u]
    ((create .calm []).run
        (notices .calm changes ++ [⟨.calm, false, .start []⟩])).store.texts
        u = some "def A;"
      ∧ arrived [] [] changes u = none := by
  constructor <;> decide +kernel

end Workspace

end Purview

/-
What a run of updates leaves of the files that a workspace starts with.
A rebuilt workspace starts with the documents that are there in the end,
and which these are, in which order and with which texts, can be told
without any workspace: by taking the batches through the files one after
another (`Change.leave`). Starting a workspace with files is one batch
more, the first, with an edit for each of them (`survivors_started`).

An update comes to what its batch leaves, whatever else it does
(`Scene.survivors_update`), since it leaves the documents in the order
that its batch gives and each with the texts that the batch has for it.
What a run leaves follows by induction, as builtins stay builtins on the
way (`survivors_updates`).
-/
import Purview.Proofs.Revisions

namespace Purview

/-- The files that a batch leaves of others. Who is not removed stays
where it is, with the last text that the batch has for it; behind come
the documents that the batch loads, in the order of their first texts.
Builtins are not among them. -/
def Change.leave (builtin : Uri → Bool) (changes : List Change)
    (files : List SourceFile) : List SourceFile :=
  let kept := files.filter fun file => .removal file.uri ∉ changes
  let loaded := (Distinct.ofList ((edits changes).map (·.uri))).filter
    fun u => !builtin u && u ∉ kept.map (·.uri)
  (kept.map fun file =>
      ⟨file.uri, (textsFor changes file.uri).getLast?.getD file.text⟩)
    ++ loaded.filterMap fun u =>
      (textsFor changes u).getLast?.map fun text => ⟨u, text⟩

-- =========================================================== survivors

/-- The file that a document leaves, unless it is a builtin or not
there. -/
def Revision.file? (u : Uri) (r? : Option Revision) : Option SourceFile :=
  (r?.filter (!·.builtin)).map fun r => ⟨u, r.text⟩

namespace Store

/-- Survivors are the files of the documents, in their order. -/
theorem survivors_eq (s : Store) :
    s.survivors
      = s.uris.filterMap fun u => Revision.file? u (s.revision? u) := by
  unfold survivors uris
  rw [List.filterMap_map, ← List.filterMap_eq_map, List.filterMap_filter]
  refine List.filterMap_congr fun e he => ?_
  have hd : s.get? e.1 = some e.2 := mem_entries.1 he
  simp only [Function.comp_apply, Revision.file?, revision?, hd,
    Option.map_some, Document.revision, Option.filter_some]
  cases e.2.builtin <;> rfl

/-- Who survives is loaded and no builtin. -/
theorem mem_uris_survivors {s : Store} {u : Uri} :
    u ∈ s.survivors.map (·.uri)
      ↔ u ∈ s.uris ∧ s.isBuiltin u = false := by
  rw [List.mem_map]
  constructor
  · rintro ⟨⟨v, text⟩, hfile, rfl⟩
    obtain ⟨d, hd, hb, -⟩ := mem_survivors.1 hfile
    exact ⟨(s.isSome_get? v).1 (by rw [hd]; rfl),
      (isBuiltin_of_some hd).trans hb⟩
  · rintro ⟨hu, hb⟩
    obtain ⟨d, hd⟩ := Option.isSome_iff_exists.1 ((s.isSome_get? u).2 hu)
    rw [isBuiltin_of_some hd] at hb
    exact ⟨⟨u, d.text⟩, mem_survivors.2 ⟨d, hd, hb, rfl⟩, rfl⟩

/-- What a batch loads is what does not stay behind its removals. -/
theorem not_stays_eq (s : Store) (changes : List Change) (u : Uri) :
    decide (¬ s.Stays changes u)
      = (!s.isBuiltin u && decide (u ∉ (s.survivors.filter
        fun file => .removal file.uri ∉ changes).map (·.uri))) := by
  have hkept : u ∈ (s.survivors.filter
        fun file => .removal file.uri ∉ changes).map (·.uri)
      ↔ u ∈ s.survivors.map (·.uri) ∧ .removal u ∉ changes := by
    simp only [List.mem_map, List.mem_filter, decide_eq_true_eq]
    constructor
    · rintro ⟨file, ⟨hfile, hstays⟩, rfl⟩
      exact ⟨⟨file, hfile, rfl⟩, hstays⟩
    · rintro ⟨⟨file, hfile, rfl⟩, hstays⟩
      exact ⟨file, ⟨hfile, hstays⟩, rfl⟩
  have hloaded : s.isBuiltin u = true → u ∈ s.uris := fun hb => by
    rw [isBuiltin_eq_any] at hb
    exact (s.mem_uris_iff u).2 (Option.isSome_of_any hb)
  rw [Bool.eq_iff_iff, Bool.and_eq_true, decide_eq_true_eq,
    decide_eq_true_eq, hkept, mem_uris_survivors, Bool.not_eq_true', Stays]
  cases hb : s.isBuiltin u with
  | true => simp [hloaded hb]
  | false => simp

end Store

-- ============================================================== batches

namespace Scene

variable (host : Host) (s : Scene) (changes : List Change)

/-- An update leaves what its batch leaves, whatever its host does. -/
theorem survivors_update :
    (s.update host changes).1.store.survivors
      = Change.leave s.store.isBuiltin changes s.store.survivors := by
  rw [Store.survivors_eq, uris_update, List.filterMap_append, Change.leave]
  congr 1
  · rw [s.store.survivors_eq, List.filter_filterMap, List.map_filterMap,
      List.filterMap_filter]
    refine List.filterMap_congr fun u hu => ?_
    obtain ⟨r, hr⟩ :=
      Option.isSome_iff_exists.1 ((s.store.mem_uris_iff u).1 hu)
    have hbuiltin : s.store.isBuiltin u = r.builtin := by
      rw [s.store.isBuiltin_eq_any, hr, Option.any_some]
    rw [revision?_update]
    cases hb : r.builtin <;> by_cases hremoved : .removal u ∈ changes <;>
      simp [Revision.file?, Revision.given, Store.Stays, hu, hr, hbuiltin,
        hb, hremoved, Option.filter_some]
  · rw [List.filterMap_filter, List.filterMap_filter]
    refine List.filterMap_congr fun u _ => ?_
    rw [← s.store.not_stays_eq changes u]
    split
    · next hloads =>
      rw [revision?_update, if_neg (of_decide_eq_true hloads),
        Revision.given]
      cases (Change.textsFor changes u).getLast? <;> rfl
    · rfl

/-- An update makes and unmakes no builtin. -/
theorem isBuiltin_update :
    (s.update host changes).1.store.isBuiltin = s.store.isBuiltin := by
  funext u
  rw [Store.isBuiltin_eq_any, revision?_update, s.store.isBuiltin_eq_any]
  cases hr : s.store.revision? u with
  | none =>
    rw [ite_self, Revision.given]
    cases (Change.textsFor changes u).getLast? <;> rfl
  | some r =>
    have hmem : u ∈ s.store.uris := (s.store.mem_uris_iff u).2 (by rw [hr]; rfl)
    cases hb : r.builtin with
    | true =>
      have hstays : s.store.Stays changes u :=
        ⟨hmem, .inl (by rw [s.store.isBuiltin_eq_any, hr]; exact hb)⟩
      rw [if_pos hstays, Revision.given_of_builtin hb]
    | false =>
      rw [Option.any_some, hb]
      split
      · rw [Revision.given_of_open hb]
        rfl
      · rw [Revision.given]
        cases (Change.textsFor changes u).getLast? <;> rfl

end Scene

-- ================================================================= runs

namespace Workspace

theorem edits_map_edit (files : List SourceFile) :
    Change.edits (files.map .edit) = files := by
  rw [Change.edits, List.filterMap_map]
  exact List.filterMap_some

/-- The last text of a file is the last that there is an edit for. -/
theorem getLast?_textsFor (files : List SourceFile) (u : Uri) :
    (Change.textsFor (files.map .edit) u).getLast? = lastText files u := by
  rw [Change.textsFor, edits_map_edit, List.getLast?_map,
    List.getLast?_filter]
  rfl

/-- The file that a document leaves behind the start. -/
theorem file?_started (builtins files : List SourceFile) (u : Uri) :
    Revision.file? u ((started builtins files).1.store.revision? u)
      = if u ∈ builtins.map (·.uri) then none
        else (lastText files u).map fun text => ⟨u, text⟩ := by
  rw [Store.revision?, (store_started builtins files).2, Option.map_map,
    initial]
  cases hlast : lastText builtins u with
  | some text =>
    rw [if_pos (Distinct.mem_ofList.1 (mem_of_lastText hlast))]
    rfl
  | none =>
    rw [if_neg (mt Distinct.mem_ofList.2 (notMem_of_lastText hlast))]
    cases lastText files u <;> rfl

/-- Starting with files comes to a batch of edits, one for each. -/
theorem survivors_started (builtins files : List SourceFile) :
    (started builtins files).1.store.survivors
      = Change.leave (· ∈ builtins.map (·.uri)) (files.map .edit) [] := by
  rw [Store.survivors_eq, (store_started builtins files).1,
    List.map_append, Distinct.ofList_append, ← Distinct.union_ofList,
    Distinct.union_eq_append (Distinct.nodup_ofList _),
    List.filterMap_append]
  have hbuiltins : (Distinct.ofList (builtins.map (·.uri))).filterMap
      (fun u => Revision.file? u
        ((started builtins files).1.store.revision? u)) = [] :=
    List.filterMap_eq_nil_iff.2 fun u hu => by
      rw [file?_started, if_pos (Distinct.mem_ofList.1 hu)]
  simp only [hbuiltins, Change.leave, edits_map_edit, List.filter_nil,
    List.map_nil, List.nil_append, List.filterMap_filter]
  refine List.filterMap_congr fun u _ => ?_
  rw [file?_started, getLast?_textsFor]
  by_cases hu : u ∈ builtins.map (·.uri) <;> simp [hu]

/-- A run of updates leaves what its batches leave, one after another. -/
theorem survivors_updates (w : Workspace) (batches : List (List Change)) :
    (w.updates batches).store.survivors
      = batches.foldl (fun files changes =>
          Change.leave w.store.isBuiltin changes files)
        w.store.survivors := by
  induction batches generalizing w with
  | nil => rfl
  | cons changes batches ih =>
    have hscene : (w.updated changes).store
        = ((w.begin false).scene.update .calm changes).1.store :=
      congrArg Scene.store (scene_updated w changes)
    have hbegun : (w.begin false).scene.store = w.store := rfl
    rw [updates, List.foldl_cons, List.foldl_cons]
    refine (ih (w.updated changes)).trans ?_
    rw [hscene, Scene.survivors_update, Scene.isBuiltin_update, hbegun]

/-- A start makes builtins of the files that come with the workspace. -/
theorem isBuiltin_started (builtins files : List SourceFile) (u : Uri) :
    (started builtins files).1.store.isBuiltin u
      = decide (u ∈ builtins.map (·.uri)) := by
  rw [Store.isBuiltin, (store_started builtins files).2, Option.any_map,
    initial]
  cases hlast : lastText builtins u with
  | some text =>
    have hmem := Distinct.mem_ofList.1 (mem_of_lastText hlast)
    rw [decide_eq_true hmem]
    rfl
  | none =>
    rw [decide_eq_false
      (mt Distinct.mem_ofList.2 (notMem_of_lastText hlast))]
    cases lastText files u <;> rfl

/-- The workspace that is rebuilt behind a run is started with what the
files of the first start, followed by the batches, leave. -/
theorem rebuilt_updates (builtins files : List SourceFile)
    (batches : List (List Change)) :
    rebuilt builtins ((started builtins files).1.updates batches).store
      = (started builtins ((files.map .edit :: batches).foldl
          (fun left changes =>
            Change.leave (· ∈ builtins.map (·.uri)) changes left) [])).1 := by
  have hbuiltin : (started builtins files).1.store.isBuiltin
      = fun u => decide (u ∈ builtins.map (·.uri)) :=
    funext (isBuiltin_started builtins files)
  rw [rebuilt, survivors_updates, hbuiltin, survivors_started,
    List.foldl_cons]

end Workspace

end Purview

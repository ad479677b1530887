/-
The loaded documents, under their identities and in load order. An
identity is loaded at most once, which is part of the type; replacing a
document keeps its place, and dropping one keeps the order of the rest.
A document in the store is only ever changed in place (`modify`), so
nothing but `insert` and `erase` touches the identities.
-/
import Purview.Document

namespace Purview

/-- The loaded documents in load order. -/
structure Store where
  entries : List (Uri × Document)
  nodup : (entries.map Prod.fst).Nodup
deriving DecidableEq

namespace Store

/-- The store that holds nothing. -/
def empty : Store := ⟨[], List.nodup_nil⟩

/-- The identities in load order. -/
def uris (s : Store) : List Uri :=
  s.entries.map Prod.fst

/-- The document of an identity. -/
def get? (s : Store) (u : Uri) : Option Document :=
  s.entries.lookup u

/-- The entry whose identity is written in one particular way. Unlike a
path that is to be resolved, the text has to be the identity's own. -/
def find? (s : Store) (written : String) : Option (Uri × Document) :=
  s.entries.find? fun e => e.1.render = written

/-- Whether an identity is loaded. -/
def contains (s : Store) (u : Uri) : Bool :=
  (s.get? u).isSome

/-- How far the document of an identity has been worked on. -/
def stageOf (s : Store) (u : Uri) : Option Stage :=
  (s.get? u).map (·.stage)

/-- The identities below `validated`, in load order. -/
def pending (s : Store) : List Uri :=
  (s.entries.filter fun e => e.2.stage < .validated).map Prod.fst

/-- Whether an identity is that of a loaded project. -/
def isProject (s : Store) (u : Uri) : Bool :=
  (s.get? u).any Document.isProject

/-- Whether an identity is that of a loaded builtin. -/
def isBuiltin (s : Store) (u : Uri) : Bool :=
  (s.get? u).any (·.builtin)

/-- Changes the document of an identity in place; without one, nothing
happens. -/
def modify (s : Store) (u : Uri) (f : Document → Document) : Store where
  entries := s.entries.map fun e => if e.1 = u then (e.1, f e.2) else e
  nodup := by
    have h : (Prod.fst ∘ fun e : Uri × Document =>
        if e.1 = u then (e.1, f e.2) else e)
        = Prod.fst := by
      funext e; simp only [Function.comp_apply]; split <;> rfl
    rw [List.map_map, h]
    exact s.nodup

/-- Loads a document, in the place of the one that the identity had or
else at the end. -/
def insert (s : Store) (u : Uri) (d : Document) : Store :=
  if h : u ∈ s.uris then s.modify u fun _ => d
  else
    { entries := s.entries ++ [(u, d)]
      nodup := by
        rw [List.map_append]
        refine List.nodup_append.2 ⟨s.nodup, by simp, ?_⟩
        intro a ha b hb e
        simp only [List.map_cons, List.map_nil, List.mem_singleton] at hb
        exact h (hb ▸ e ▸ ha) }

/-- Drops a document. -/
def erase (s : Store) (u : Uri) : Store where
  entries := s.entries.filter fun e => e.1 ≠ u
  nodup := s.nodup.sublist (List.filter_sublist.map Prod.fst)

-- ============================================= identities after a change

@[simp] theorem uris_modify (s : Store) (u : Uri) (f : Document → Document) :
    (s.modify u f).uris = s.uris := by
  unfold uris modify
  rw [List.map_map]
  apply List.map_congr_left
  intro e _
  simp only [Function.comp_apply]
  split <;> rfl

@[simp] theorem uris_erase (s : Store) (u : Uri) :
    (s.erase u).uris = s.uris.filter (· ≠ u) := by
  unfold uris erase
  rw [List.filter_map]
  rfl

/-- A document that is new is loaded last. -/
theorem uris_insert (s : Store) (u : Uri) (d : Document) :
    (s.insert u d).uris = if u ∈ s.uris then s.uris else s.uris ++ [u] := by
  unfold insert
  split
  · exact uris_modify s u _
  · simp [uris]

-- ============================================== documents after a change

/-- An identity has a document exactly if it is listed. -/
theorem isSome_get? (s : Store) (u : Uri) :
    (s.get? u).isSome ↔ u ∈ s.uris := by
  unfold get? uris
  rw [List.lookup_isSome_iff, List.mem_map]
  constructor
  · rintro ⟨e, he, h⟩
    exact ⟨e, he, (eq_of_beq h).symm⟩
  · rintro ⟨e, he, rfl⟩
    exact ⟨e, he, beq_self_eq_true _⟩

theorem get?_eq_none (s : Store) (u : Uri) :
    s.get? u = none ↔ u ∉ s.uris := by
  rw [← isSome_get?, Bool.not_eq_true, Option.isSome_eq_false_iff,
    Option.isNone_iff_eq_none]

/-- Stores of the same uris lack the same documents. -/
theorem get?_none_of_uris {s t : Store} (h : t.uris = s.uris) {u : Uri}
    (hu : s.get? u = none) : t.get? u = none :=
  (get?_eq_none t u).2 (h ▸ (get?_eq_none s u).1 hu)

/-- Looking up through a change that keeps every key. -/
private theorem lookup_map_entry (f : Uri → Document → Document) (v : Uri)
    (es : List (Uri × Document)) :
    (es.map fun e => (e.1, f e.1 e.2)).lookup v = (es.lookup v).map (f v) := by
  induction es with
  | nil => rfl
  | cons e es ih =>
    rw [List.map_cons, List.lookup_cons, List.lookup_cons]
    split
    · next h => rw [eq_of_beq h]; rfl
    · exact ih

/-- A change in place is seen at its identity and nowhere else. -/
theorem get?_modify (s : Store) (u v : Uri) (f : Document → Document) :
    (s.modify u f).get? v = if v = u then (s.get? v).map f else s.get? v := by
  have hmap : (s.modify u f).entries
      = s.entries.map fun e => (e.1, (if e.1 = u then f else id) e.2) := by
    apply List.map_congr_left
    intro e _
    split <;> rfl
  unfold get?
  rw [hmap, lookup_map_entry fun k => if k = u then f else id]
  split
  · rfl
  · exact Option.map_id_apply

@[simp] theorem get?_modify_self (s : Store) (u : Uri)
    (f : Document → Document) :
    (s.modify u f).get? u = (s.get? u).map f := by
  rw [get?_modify, if_pos rfl]

/-- A document that is replaced is found as it is now. -/
theorem get?_modify_const {s : Store} {u : Uri} {d : Document}
    (h : s.get? u = some d) (d' : Document) (v : Uri) :
    (s.modify u fun _ => d').get? v = if v = u then some d' else s.get? v := by
  rw [get?_modify]
  split
  · next hv => rw [hv, h]; rfl
  · rfl

theorem get?_modify_of_ne (s : Store) {u v : Uri} (h : v ≠ u)
    (f : Document → Document) :
    (s.modify u f).get? v = s.get? v := by
  rw [get?_modify, if_neg h]

/-- A loaded document is found at its identity, and loading it moves
nothing else. -/
theorem get?_insert (s : Store) (u v : Uri) (d : Document) :
    (s.insert u d).get? v = if v = u then some d else s.get? v := by
  unfold insert
  split
  · next h =>
    rw [get?_modify]
    split
    · next hv =>
      subst hv
      obtain ⟨x, hx⟩ := Option.isSome_iff_exists.1 ((isSome_get? s v).2 h)
      rw [hx]
      rfl
    · rfl
  · next h =>
    have happ : List.lookup v (s.entries ++ [(u, d)])
        = (s.get? v).or (if v = u then some d else none) := by
      rw [List.lookup_append]
      congr 1
      rw [List.lookup_cons, List.lookup_nil]
      by_cases hv : v = u
      · rw [if_pos hv, beq_iff_eq.2 hv]
      · rw [if_neg hv, beq_eq_false_iff_ne.2 hv]
    show List.lookup v (s.entries ++ [(u, d)]) = _
    rw [happ]
    by_cases hv : v = u
    · rw [hv, (get?_eq_none s u).2 h]
      simp
    · simp [hv]

/-- A dropped document is gone, and dropping it moves nothing else. -/
theorem get?_erase (s : Store) (u v : Uri) :
    (s.erase u).get? v = if v = u then none else s.get? v := by
  by_cases hv : v = u
  · rw [if_pos hv, get?_eq_none, uris_erase, hv]
    simp
  · rw [if_neg hv]
    show (s.entries.filter fun e => e.1 ≠ u).lookup v = s.entries.lookup v
    generalize s.entries = es
    induction es with
    | nil => rfl
    | cons e es ih =>
      rw [List.filter_cons]
      by_cases he : e.1 = u
      · have hve : (v == e.1) = false := by
          rw [he]
          exact beq_eq_false_iff_ne.2 hv
        rw [if_neg (by simpa using he), ih, List.lookup_cons, hve]
      · rw [if_pos (by simpa using he), List.lookup_cons, List.lookup_cons, ih]

end Store

end Purview

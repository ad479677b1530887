/-
What is written of an identity names that identity again. The written
form is taken apart in the same two cuts that made it: behind the first
`://`, and at the slashes of what follows. Neither cut may come to lie
elsewhere. The segments hold no slash, so the path falls apart into just
them (`steps_pathChars`). And no segment is empty, so two slashes never
meet in a path, and a path alone has no `://` in it, whatever colons it
has (`cut_pathChars`); under a scheme the first `://` is the scheme's own
(`cut_append`).

That the segments are what following them leaves is one invariant of
`follow` (`Route`): names and leading `..`, and none of those at a root.
It holds of any path that is followed and passes to every part of a
path, so the folder of a document has it without being followed again.
-/
import Mathlib.Data.List.Chain
import Purview.Uri

namespace Purview.Uri

open splitScheme (cut)

variable {absolute : Bool} {place segments : List String} {s : String}
  {u : Uri}

-- ========================================================== vocabulary

/-- What a document or folder may be called: no segment with a meaning
of its own, and nothing that would be split. -/
structure IsName (s : String) : Prop where
  ne_empty : s ≠ ""
  ne_dot : s ≠ "."
  ne_up : s ≠ ".."
  slash : '/' ∉ s.toList
  backslash : '\\' ∉ s.toList

instance (s : String) : Decidable (IsName s) :=
  decidable_of_iff
    (s ≠ "" ∧ s ≠ "." ∧ s ≠ ".." ∧ '/' ∉ s.toList ∧ '\\' ∉ s.toList)
    ⟨fun ⟨hempty, hdot, hup, hslash, hback⟩ =>
      ⟨hempty, hdot, hup, hslash, hback⟩,
      fun h => ⟨h.ne_empty, h.ne_dot, h.ne_up, h.slash, h.backslash⟩⟩

/-- A way that is as short as it can be: out of the start by `..`, if it
has a way out, and then down by names. -/
structure Route (absolute : Bool) (segments : List String) : Prop where
  step : ∀ s ∈ segments, IsName s ∨ s = ".."
  up : segments.Pairwise fun a b => b = ".." → a = ".."
  rooted : absolute = true → ".." ∉ segments

/-- An identity that its written form leads back to: a scheme, if there
is one, ends with its first `://`, and the path is a route. -/
structure Resolved (u : Uri) : Prop where
  scheme : u.scheme = "" ∨ cut u.scheme.toList = some (u.scheme.toList, [])
  backslash : '\\' ∉ u.scheme.toList
  route : Route u.absolute u.segments

-- =========================================================== following

namespace Route

/-- Of a route every part is a route. -/
theorem sublist {part : List String} (h : Route absolute segments)
    (hpart : part.Sublist segments) : Route absolute part where
  step s hs := h.step s (hpart.subset hs)
  up := h.up.sublist hpart
  rooted ha hmem := h.rooted ha (hpart.subset hmem)

/-- A route can be followed further down. -/
theorem append_names {names : List String} (h : Route absolute segments)
    (hnames : ∀ s ∈ names, IsName s) : Route absolute (segments ++ names) where
  step s hs := (List.mem_append.1 hs).elim (h.step s)
    fun hs => .inl (hnames s hs)
  up := List.pairwise_append.2 ⟨h.up,
    List.pairwise_of_forall_mem_list
      fun _ _ b hb hup => absurd hup (hnames b hb).ne_up,
    fun _ _ b hb hup => absurd hup (hnames b hb).ne_up⟩
  rooted ha hmem := (List.mem_append.1 hmem).elim (h.rooted ha)
    fun hmem => (hnames _ hmem).ne_up rfl

theorem of_names (h : ∀ s ∈ segments, IsName s) : Route absolute segments := by
  have hnone : Route absolute [] := ⟨nofun, .nil, nofun⟩
  exact hnone.append_names h

end Route

/-- A name leads further down, wherever one stands. -/
theorem follow_name (h : IsName s) : follow absolute place s = s :: place := by
  rw [follow.eq_def, if_neg (by simp [h.ne_empty, h.ne_dot]), if_neg h.ne_up]

/-- A segment that is followed leaves a route, in whatever order its
parts are read. -/
theorem route_follow (h : Route absolute place.reverse)
    (hslash : '/' ∉ s.toList) (hback : '\\' ∉ s.toList) :
    Route absolute (follow absolute place s).reverse := by
  rw [follow.eq_def]
  split
  · exact h
  next hplain =>
  obtain ⟨hempty, hdot⟩ := not_or.1 hplain
  split
  · next hup =>
    cases place with
    | nil =>
      cases absolute with
      | true => exact h
      | false => exact ⟨by simp, by simp, by simp⟩
    | cons name outer =>
      dsimp only
      split
      · exact h.sublist (List.reverse_sublist.2 (List.sublist_cons_self _ _))
      next hname =>
      have hname : name = ".." := not_not.1 hname
      split
      · exact h
      next habs =>
      refine ⟨?_, ?_, fun ha => absurd ha habs⟩
      · intro t ht
        rw [List.reverse_cons, List.mem_append, List.mem_singleton] at ht
        exact ht.elim (h.step t) .inr
      · -- behind a `..` there is nothing but `..` further out
        have hrev := List.pairwise_reverse.1 h.up
        refine List.pairwise_reverse.2 (.cons (fun b hb _ => ?_) hrev)
        rcases List.mem_cons.1 hb with rfl | hb
        · exact hname
        · exact List.rel_of_pairwise_cons hrev hb hname
  · next hup =>
    rw [List.reverse_cons]
    refine h.append_names fun t ht => ?_
    obtain rfl := List.mem_singleton.1 ht
    exact ⟨hempty, hdot, hup, hslash, hback⟩

/-- Following segments leaves a route. -/
theorem route_resolve
    (h : ∀ s ∈ segments, '/' ∉ s.toList ∧ '\\' ∉ s.toList) :
    Route absolute (resolve absolute segments) := by
  suffices hplace : ∀ place, Route absolute place.reverse →
      Route absolute (segments.foldl (follow absolute) place).reverse from
    hplace [] ⟨by simp, by simp, by simp⟩
  induction segments with
  | nil => exact fun _ hp => hp
  | cons s segments ih =>
    intro place hp
    have hs := h s List.mem_cons_self
    exact ih (fun t ht => h t (List.mem_cons_of_mem _ ht)) _
      (route_follow hp hs.1 hs.2)

/-- Of a route nothing is taken back. -/
theorem resolve_route (h : Route absolute segments) :
    resolve absolute segments = segments := by
  suffices hplace : ∀ place, Route absolute (place.reverse ++ segments) →
      segments.foldl (follow absolute) place = segments.reverse ++ place by
    rw [resolve, hplace [] h, List.append_nil, List.reverse_reverse]
  clear h
  induction segments with
  | nil => exact fun _ _ => rfl
  | cons s segments ih =>
    intro place h
    have hstep : follow absolute place s = s :: place := by
      rcases h.step s (by simp) with hname | rfl
      · exact follow_name hname
      have habs : absolute = false :=
        Bool.eq_false_iff.2 fun ha => h.rooted ha (by simp)
      subst habs
      cases place with
      | nil => rfl
      | cons name outer =>
        have hname : name = ".." :=
          (List.pairwise_append.1 h.up).2.2 name (by simp) ".." (by simp) rfl
        subst hname
        rfl
    rw [List.foldl_cons, hstep, ih (s :: place) (by simpa using h)]
    simp

/-- Empty segments and `.` lead nowhere. -/
theorem resolve_skip (h : s = "" ∨ s = ".") :
    resolve absolute (s :: segments) = resolve absolute segments := by
  rw [resolve, List.foldl_cons, follow.eq_def, if_pos h]
  rfl

-- ============================================================= schemes

/-- A scheme is cut off where it ends first. -/
theorem cut_append {text front back : List Char}
    (h : cut text = some (front, back)) (more : List Char) :
    cut (text ++ more) = some (front, back ++ more) := by
  fun_induction cut text generalizing front back with
  | case1 rest =>
    cases h
    rfl
  | case2 c rest hfirst ih =>
    obtain ⟨⟨front, back⟩, hrest, heq⟩ := Option.map_eq_some_iff.1 h
    cases heq
    rw [List.cons_append, cut, ih hrest]
    · rfl
    · -- what is cut behind its first character goes on for two more
      rintro rest' rfl hrest'
      rcases rest with _ | ⟨a, _ | ⟨b, rest⟩⟩
      · cases hrest
      · cases hrest'
        cases hrest
      · cases hrest'
        exact hfirst rest rfl rfl
  | case3 => cases h

/-- A text is cut into its scheme, which cannot be cut further, and the
path behind it. -/
theorem eq_of_cut {text front back : List Char}
    (h : cut text = some (front, back)) :
    text = front ++ back ∧ cut front = some (front, []) := by
  fun_induction cut text generalizing front back with
  | case1 rest =>
    cases h
    exact ⟨rfl, rfl⟩
  | case2 c rest hfirst ih =>
    obtain ⟨⟨front, back⟩, hrest, heq⟩ := Option.map_eq_some_iff.1 h
    cases heq
    obtain ⟨rfl, hfront⟩ := ih hrest
    refine ⟨rfl, ?_⟩
    rw [cut, hfront]
    · rfl
    · rintro rest' rfl rfl
      exact hfirst _ rfl rfl
  | case3 => cases h

/-- Without two slashes side by side there is no scheme. -/
theorem cut_eq_none {text : List Char}
    (h : text.IsChain fun a b => a = '/' → b ≠ '/') : cut text = none := by
  fun_induction cut text with
  | case1 rest => simp at h
  | case2 c rest _ ih => rw [ih h.tail]; rfl
  | case3 => rfl

/-- A text without a scheme is all path. -/
theorem splitScheme_of_cut_eq_none {text : List Char} (h : cut text = none) :
    splitScheme text = ([], text) := by
  rw [splitScheme, h]
  rfl

theorem splitScheme_of_cut {text : List Char} {parts : List Char × List Char}
    (h : cut text = some parts) : splitScheme text = parts := by
  rw [splitScheme, h]
  rfl

-- =============================================================== paths

/-- The path below a scheme, as characters. -/
def pathChars (absolute : Bool) (segments : List String) : List Char :=
  (if absolute then ['/'] else [])
    ++ ['/'].intercalate (segments.map String.toList)

/-- The segments of a path that is written out. -/
def steps (path : List Char) : List String :=
  (path.splitOn '/').map String.ofList

/-- An identity is written as its scheme with the path behind it. -/
theorem toList_render (u : Uri) :
    u.render.toList = u.scheme.toList ++ pathChars u.absolute u.segments := by
  rw [render, path, String.toList_append, String.toList_append,
    String.toList_intercalate, pathChars]
  cases u.absolute <;> rfl

/-- Two parts of a path are written with a slash between them. -/
theorem pathChars_append {front back : List String} (hfront : front ≠ [])
    (hback : back ≠ []) :
    pathChars absolute (front ++ back)
      = pathChars absolute front ++ '/' :: pathChars false back := by
  suffices hjoin : ∀ xs ys : List (List Char), xs ≠ [] → ys ≠ [] →
      ['/'].intercalate (xs ++ ys)
        = ['/'].intercalate xs ++ '/' :: ['/'].intercalate ys by
    rw [pathChars, List.map_append, hjoin _ _ (by simpa using hfront)
      (by simpa using hback), ← List.append_assoc]
    rfl
  intro xs ys hxs hys
  induction xs with
  | nil => exact absurd rfl hxs
  | cons x xs ih =>
    cases xs with
    | nil =>
      cases ys with
      | nil => exact absurd rfl hys
      | cons y ys => simp
    | cons x' xs =>
      rw [List.cons_append, List.cons_append, List.intercalate_cons_cons,
        ← List.cons_append, ih (by simp), List.intercalate_cons_cons]
      simp

namespace Route

/-- The segments of a route can be written. -/
theorem plain (h : Route absolute segments) :
    ∀ s ∈ segments, s ≠ "" ∧ '/' ∉ s.toList ∧ '\\' ∉ s.toList := by
  intro s hs
  rcases h.step s hs with hname | rfl
  · exact ⟨hname.ne_empty, hname.slash, hname.backslash⟩
  · decide

/-- Cutting the path at its slashes finds the segments, behind an empty
one if there is a slash in front. -/
theorem steps_pathChars (h : Route absolute segments) (hne : segments ≠ []) :
    steps (pathChars absolute segments)
      = (if absolute then [""] else []) ++ segments := by
  have hsplit : (['/'].intercalate (segments.map String.toList)).splitOn '/'
      = segments.map String.toList := by
    refine List.splitOn_intercalate '/' (fun l hl => ?_) (by simpa using hne)
    obtain ⟨s, hs, rfl⟩ := List.mem_map.1 hl
    exact (h.plain s hs).2.1
  have hsteps : steps (['/'].intercalate (segments.map String.toList))
      = segments := by
    rw [steps, hsplit, List.map_map]
    exact (List.map_congr_left fun s _ => String.ofList_toList).trans
      (List.map_id _)
  cases absolute with
  | false => exact hsteps
  | true =>
    rw [pathChars, if_pos rfl, List.singleton_append, steps,
      ← List.nil_append ('/' :: _),
      List.splitOn_append_cons_self_of_not_mem (List.not_mem_nil),
      List.map_cons]
    exact congrArg ("" :: ·) hsteps

/-- What is written is followed back to what it was written of. -/
theorem resolve_steps (h : Route absolute segments) :
    resolve absolute (steps (pathChars absolute segments)) = segments := by
  rcases eq_or_ne segments [] with rfl | hne
  · cases absolute <;> rfl
  rw [h.steps_pathChars hne]
  cases absolute with
  | false => exact resolve_route h
  | true => exact (resolve_skip (.inl rfl)).trans (resolve_route h)

/-- Each segment with the slash behind it: no two slashes meet, and the
first character is none. -/
theorem slashes_apart (h : Route absolute segments) :
    (segments.flatMap fun s => s.toList ++ ['/']).IsChain
        (fun a b => a = '/' → b ≠ '/')
      ∧ (segments.flatMap fun s => s.toList ++ ['/']).head? ≠ some '/' := by
  induction segments with
  | nil => exact ⟨.nil, by simp⟩
  | cons s segments ih =>
    obtain ⟨hchain, hhead⟩ := ih (h.sublist (List.sublist_cons_self _ _))
    obtain ⟨hempty, hslash, -⟩ := h.plain s List.mem_cons_self
    have hs : s.toList.IsChain fun a b => a = '/' → b ≠ '/' :=
      List.Pairwise.isChain (List.pairwise_of_forall_mem_list
        fun _ ha _ _ heq => absurd (heq ▸ ha) hslash)
    rw [List.flatMap_cons, List.append_assoc, List.singleton_append]
    constructor
    · refine List.isChain_append.2 ⟨hs, ?_, fun a ha _ _ heq =>
        absurd (heq ▸ List.mem_of_getLast? ha) hslash⟩
      refine List.isChain_cons.2 ⟨fun b hb _ heq => ?_, hchain⟩
      exact hhead (heq ▸ hb)
    · rw [List.head?_append]
      cases hs : s.toList with
      | nil => exact absurd (String.toList_eq_nil_iff.1 hs) hempty
      | cons c cs =>
        rintro hc
        obtain rfl := Option.some.inj hc
        exact hslash (hs ▸ List.mem_cons_self)

theorem intercalate_concat {names : List (List Char)} (hne : names ≠ []) :
    ['/'].intercalate names ++ ['/'] = names.flatMap (· ++ ['/']) := by
  induction names with
  | nil => exact absurd rfl hne
  | cons n names ih =>
    cases names with
    | nil => simp
    | cons m names =>
      rw [List.intercalate_cons_cons, List.append_assoc, ih (by simp)]
      rfl

/-- No two slashes meet in a path, nor do they when one is put behind
it. -/
theorem isChain_pathChars_concat (h : Route absolute segments)
    (hne : segments ≠ []) : (pathChars absolute segments ++ ['/']).IsChain
      fun a b => a = '/' → b ≠ '/' := by
  obtain ⟨hchain, hhead⟩ := h.slashes_apart
  rw [pathChars, List.append_assoc, intercalate_concat (by simpa using hne),
    List.flatMap_map]
  cases absolute with
  | false => exact hchain
  | true =>
    exact List.isChain_cons.2
      ⟨fun b hb _ heq => hhead (heq ▸ hb), hchain⟩

/-- A path has no scheme in it, also with a slash put behind it. -/
theorem cut_pathChars_concat (h : Route absolute segments) :
    cut (pathChars absolute segments ++ ['/']) = none := by
  rcases eq_or_ne segments [] with rfl | hne
  · cases absolute <;> rfl
  · exact cut_eq_none (h.isChain_pathChars_concat hne)

/-- A path is never taken for a scheme. -/
theorem cut_pathChars (h : Route absolute segments) :
    cut (pathChars absolute segments) = none := by
  cases hcut : cut (pathChars absolute segments) with
  | none => rfl
  | some parts =>
    have hmore := cut_append hcut ['/']
    rw [h.cut_pathChars_concat] at hmore
    cases hmore

/-- Whether a path is absolute can be told from its first character. -/
theorem head?_pathChars (h : Route absolute segments) :
    (pathChars absolute segments).head? = some '/' ↔ absolute = true := by
  cases absolute with
  | true => simp [pathChars]
  | false =>
    refine iff_of_false (fun hhead => ?_) Bool.false_ne_true
    rcases eq_or_ne segments [] with rfl | hne
    · cases hhead
    refine h.slashes_apart.2 ?_
    rw [← List.flatMap_map String.toList (· ++ ['/']),
      ← intercalate_concat (by simpa using hne), List.head?_append]
    exact congrArg (Option.or · (some '/')) hhead

/-- Only the way that leads nowhere is written as nothing. -/
theorem pathChars_eq_nil (h : Route absolute segments) :
    pathChars absolute segments = [] ↔ absolute = false ∧ segments = [] := by
  constructor
  · intro hnil
    have hseg := h.resolve_steps
    rw [hnil] at hseg
    refine ⟨?_, hseg.symm.trans (by cases absolute <;> rfl)⟩
    cases absolute with
    | false => rfl
    | true => cases hnil
  · rintro ⟨rfl, rfl⟩
    rfl

theorem backslash_notMem_pathChars (h : Route absolute segments) :
    '\\' ∉ pathChars absolute segments := by
  rw [pathChars, List.mem_append, not_or]
  refine ⟨by cases absolute <;> decide, fun hmem => ?_⟩
  rcases eq_or_ne segments [] with rfl | hne
  · cases hmem
  have hmem := List.mem_append_left ['/'] hmem
  rw [intercalate_concat (by simpa using hne), List.flatMap_map,
    List.mem_flatMap] at hmem
  obtain ⟨s, hs, hmem⟩ := hmem
  rcases List.mem_append.1 hmem with hmem | hmem
  · exact (h.plain s hs).2.2 hmem
  · revert hmem
    decide

end Route

-- ================================================================ texts

/-- A text with its backslashes turned. -/
def slashed (raw : List Char) : List Char :=
  raw.map fun c => if c = '\\' then '/' else c

theorem slashed_append (xs ys : List Char) :
    slashed (xs ++ ys) = slashed xs ++ slashed ys := List.map_append

/-- A text without backslashes is left alone. -/
theorem slashed_eq_self {raw : List Char} (h : '\\' ∉ raw) :
    slashed raw = raw := by
  have hself : ∀ c ∈ raw, (if c = '\\' then '/' else c) = c := by
    intro c hc
    exact if_neg (ne_of_mem_of_not_mem hc h)
  rw [slashed, List.map_congr_left hself, List.map_id']

/-- None is left of the others. -/
theorem backslash_notMem_slashed (raw : List Char) :
    '\\' ∉ slashed raw := by
  intro hmem
  obtain ⟨c, -, hc⟩ := List.mem_map.1 hmem
  split at hc
  · cases hc
  · contradiction

/-- What a text names, by its scheme and its path. -/
theorem ofChars_of_splitScheme {raw scheme path : List Char}
    (h : splitScheme (slashed raw) = (scheme, path)) :
    ofChars raw = ⟨String.ofList scheme, decide (path.head? = some '/'),
      resolve (decide (path.head? = some '/')) (steps path)⟩ := by
  have hparts : ofChars raw = (let parts := splitScheme (slashed raw)
    ⟨String.ofList parts.1, decide (parts.2.head? = some '/'),
      resolve (decide (parts.2.head? = some '/')) (steps parts.2)⟩) := rfl
  rw [hparts, h]

/-- Between slashes there are none, and no new characters. -/
theorem mem_splitOn_slash {path l : List Char} (hl : l ∈ path.splitOn '/') :
    '/' ∉ l ∧ ∀ c ∈ l, c ∈ path := by
  induction path generalizing l with
  | nil =>
    obtain rfl : l = [] := by simpa using hl
    exact ⟨List.not_mem_nil, fun c hc => hc⟩
  | cons c path ih =>
    rw [List.splitOn_cons_eq_if_modifyHead] at hl
    have hrest : ∀ k ∈ path.splitOn '/',
        '/' ∉ k ∧ ∀ d ∈ k, d ∈ c :: path := fun k hk =>
      ⟨(ih hk).1, fun d hd => List.mem_cons_of_mem _ ((ih hk).2 d hd)⟩
    split at hl
    · rcases List.mem_cons.1 hl with rfl | hl
      · exact ⟨List.not_mem_nil, fun d hd => absurd hd List.not_mem_nil⟩
      · exact hrest l hl
    next hc =>
    cases hsplit : path.splitOn '/' with
    | nil => exact absurd hsplit (List.splitOn_ne_nil _ _)
    | cons k ks =>
      rw [hsplit] at hl hrest
      rcases List.mem_cons.1 hl with rfl | hl
      · obtain ⟨hslash, hmem⟩ := hrest k List.mem_cons_self
        refine ⟨fun h => ?_, ?_⟩
        · exact (List.mem_cons.1 h).elim (fun h => hc (by simp [h.symm])) hslash
        · exact List.forall_mem_cons.2 ⟨List.mem_cons_self, hmem⟩
      · exact hrest l (List.mem_cons_of_mem _ hl)

-- ========================================================== identities

/-- What any text names is resolved. -/
theorem resolved_ofString (raw : String) : Resolved (ofString raw) := by
  have hback := backslash_notMem_slashed raw.toList
  have hroute : ∀ absolute path, (∀ c ∈ path, c ∈ slashed raw.toList) →
      Route absolute (resolve absolute (steps path)) := by
    refine fun absolute path hmem => route_resolve fun s hs => ?_
    obtain ⟨l, hl, rfl⟩ := List.mem_map.1 hs
    obtain ⟨hslash, hsub⟩ := mem_splitOn_slash hl
    rw [String.toList_ofList]
    exact ⟨hslash, fun hc => hback (hmem _ (hsub _ hc))⟩
  cases hcut : cut (slashed raw.toList) with
  | none =>
    rw [ofString, ofChars_of_splitScheme (splitScheme_of_cut_eq_none hcut)]
    exact ⟨.inl rfl, List.not_mem_nil, hroute _ _ fun _ hc => hc⟩
  | some parts =>
    obtain ⟨scheme, path⟩ := parts
    obtain ⟨heq, hscheme⟩ := eq_of_cut hcut
    rw [ofString, ofChars_of_splitScheme (splitScheme_of_cut hcut)]
    rw [heq] at hback hroute
    refine ⟨.inr ?_, ?_, hroute _ _ fun _ => List.mem_append_right _⟩
    · rw [String.toList_ofList, hscheme]
    · rw [String.toList_ofList]
      exact fun hc => hback (List.mem_append_left _ hc)

/-- The scheme of an identity is found in front of any path. -/
theorem Resolved.splitScheme_append (h : Resolved u) {rest : List Char}
    (hrest : cut rest = none) :
    splitScheme (u.scheme.toList ++ rest) = (u.scheme.toList, rest) := by
  rcases h.scheme with hnil | hcut
  · rw [hnil, String.toList_empty, List.nil_append,
      splitScheme_of_cut_eq_none hrest]
  · exact splitScheme_of_cut (cut_append hcut rest)

/-- No identity is written with a backslash. -/
theorem Resolved.backslash_notMem_render (h : Resolved u) :
    '\\' ∉ u.render.toList := by
  rw [toList_render, List.mem_append, not_or]
  exact ⟨h.backslash, h.route.backslash_notMem_pathChars⟩

/-- The scheme is found in what has been written. -/
theorem Resolved.splitScheme_render (h : Resolved u) :
    splitScheme u.render.toList
      = (u.scheme.toList, pathChars u.absolute u.segments) := by
  rw [toList_render]
  exact h.splitScheme_append h.route.cut_pathChars

/-- The written form names what it was written of. -/
theorem ofString_render (h : Resolved u) : ofString u.render = u := by
  have hsplit : splitScheme (slashed u.render.toList)
      = (u.scheme.toList, pathChars u.absolute u.segments) := by
    rw [slashed_eq_self h.backslash_notMem_render, h.splitScheme_render]
  rw [ofString, ofChars_of_splitScheme hsplit]
  simp only [h.route.head?_pathChars, Bool.decide_eq_true, String.ofList_toList,
    h.route.resolve_steps]

/-- The folder of an identity is one. -/
theorem resolved_parent (h : Resolved u) : Resolved u.parent where
  scheme := h.scheme
  backslash := h.backslash
  route := h.route.sublist (List.dropLast_sublist _)

/-- So is whatever a text leads to from there. -/
theorem resolved_join (folder : Uri) (relative : String) :
    Resolved (folder.join relative) := by
  unfold join
  dsimp only
  split
  · exact resolved_ofString _
  split
  · exact resolved_ofString _
  · exact resolved_ofString _

-- ============================================================== folders

/-- A path up to its last slash, without it unless it is the root. -/
def folderChars (path : List Char) : List Char :=
  let front := path.reverse.dropWhile (· ≠ '/')
  if front = ['/'] then ['/'] else front.tail.reverse

theorem dropWhile_name {name : List Char} (hname : '/' ∉ name)
    (more : List Char) :
    (name.reverse ++ more).dropWhile (· ≠ '/')
      = more.dropWhile (· ≠ '/') :=
  List.dropWhile_append_of_pos fun c hc => by
    simpa using ne_of_mem_of_not_mem (List.mem_reverse.1 hc) hname

/-- What stands before the last slash is the folder. -/
theorem folderChars_append {front name : List Char} (hfront : front ≠ [])
    (hname : '/' ∉ name) : folderChars (front ++ '/' :: name) = front := by
  have hdrop : (front ++ '/' :: name).reverse.dropWhile (· ≠ '/')
      = '/' :: front.reverse := by
    rw [List.reverse_append, List.reverse_cons, List.append_assoc,
      dropWhile_name hname]
    rfl
  rw [folderChars, hdrop, if_neg (by simpa using hfront), List.tail_cons,
    List.reverse_reverse]

/-- A document in the root has the root for its folder. -/
theorem folderChars_root {name : List Char} (hname : '/' ∉ name) :
    folderChars ('/' :: name) = ['/'] := by
  rw [folderChars, List.reverse_cons, dropWhile_name hname]
  rfl

theorem folderChars_name {name : List Char} (hname : '/' ∉ name) :
    folderChars name = [] := by
  rw [folderChars, ← List.append_nil name.reverse, dropWhile_name hname]
  rfl

/-- The folder of a document is written as what stands before the last
slash; a root keeps its slash. -/
theorem Resolved.render_parent (h : Resolved u) :
    u.parent.render.toList
      = (splitScheme u.render.toList).1
        ++ folderChars (splitScheme u.render.toList).2 := by
  rw [h.splitScheme_render, toList_render]
  refine congrArg (u.scheme.toList ++ ·) ?_
  change pathChars u.absolute u.segments.dropLast
    = folderChars (pathChars u.absolute u.segments)
  have hroute := h.route
  rcases List.eq_nil_or_concat u.segments with hnil | ⟨names, name, hseg⟩
  · rw [hnil]
    cases u.absolute <;> rfl
  rw [hseg, List.concat_eq_append] at hroute ⊢
  have hname := (hroute.plain name (by simp)).2.1
  rw [List.dropLast_concat]
  rcases eq_or_ne names [] with rfl | hne
  · rw [List.nil_append, pathChars, pathChars, List.map_singleton,
      List.intercalate_singleton]
    cases u.absolute with
    | true => exact (folderChars_root hname).symm
    | false => exact (folderChars_name hname).symm
  · have hsingle : pathChars false [name] = name.toList := by
      simp [pathChars]
    have hnil : pathChars u.absolute names ≠ [] := fun hnil =>
      hne ((hroute.sublist
        (List.sublist_append_left _ _)).pathChars_eq_nil.1 hnil).2
    rw [pathChars_append hne (List.cons_ne_nil _ _), hsingle,
      folderChars_append hnil hname]

-- ========================================================= normal form

/-- An identity that is made of texts: by the text itself, which for a
file is its path, or as a folder, or by following a text from there. -/
inductive Expr where
  | ofString (raw : String)
  | parent (of : Expr)
  | join (folder : Expr) (relative : String)

/-- The identity that is made. -/
def Expr.eval : Expr → Uri
  | ofString raw => Uri.ofString raw
  | parent of => of.eval.parent
  | join folder relative => folder.eval.join relative

/-- However an identity is made, it is in order. -/
theorem resolved_eval (e : Expr) : Resolved e.eval := by
  induction e with
  | ofString raw => exact resolved_ofString raw
  | parent of ih => exact resolved_parent ih
  | join folder relative _ => exact resolved_join _ _

/-- A path in the one form it is written in: nothing, the root alone, or
segments between slashes, where `..` only stands in front of a path that
has no root. -/
def IsPath (path : List Char) : Prop :=
  path = [] ∨ path = ['/']
    ∨ ∃ absolute ups names,
      path = pathChars absolute (List.replicate ups ".." ++ names)
        ∧ 0 < ups + names.length
        ∧ (∀ s ∈ names, IsName s)
        ∧ (absolute = true → ups = 0)

/-- A route leads out some levels and then down by names. -/
theorem Route.exists_names (h : Route absolute segments) :
    ∃ ups names, segments = List.replicate ups ".." ++ names
      ∧ ∀ s ∈ names, IsName s := by
  induction segments with
  | nil => exact ⟨0, [], rfl, by simp⟩
  | cons s segments ih =>
    rcases eq_or_ne s ".." with rfl | hs
    · obtain ⟨ups, names, rfl, hnames⟩ :=
        ih (h.sublist (List.sublist_cons_self _ _))
      exact ⟨ups + 1, names, rfl, hnames⟩
    · -- behind a name there is no `..`
      refine ⟨0, s :: segments, rfl, fun t ht => ?_⟩
      refine (h.step t ht).resolve_right fun hup => ?_
      rcases List.mem_cons.1 ht with rfl | ht
      · exact hs hup
      · exact hs (List.rel_of_pairwise_cons h.up ht hup)

/-- The path of a route is written in normal form. -/
theorem Route.isPath (h : Route absolute segments) :
    IsPath (pathChars absolute segments) := by
  obtain ⟨ups, names, rfl, hnames⟩ := h.exists_names
  rcases Nat.eq_zero_or_pos (ups + names.length) with hnil | hpos
  · obtain ⟨rfl, hlength⟩ := Nat.add_eq_zero_iff.1 hnil
    obtain rfl := List.eq_nil_of_length_eq_zero hlength
    cases absolute with
    | false => exact .inl rfl
    | true => exact .inr (.inl rfl)
  · refine .inr (.inr ⟨absolute, ups, names, rfl, hpos, hnames, fun ha => ?_⟩)
    by_contra hups
    exact h.rooted ha
      (List.mem_append_left _ (List.mem_replicate.2 ⟨hups, rfl⟩))

/-- A text in normal form. -/
structure Normal (text : String) : Prop where
  fixed : (ofString text).render = text
  backslash : '\\' ∉ text.toList
  path : IsPath (splitScheme text.toList).2

theorem Resolved.normal (h : Resolved u) : Normal u.render where
  fixed := congrArg render (ofString_render h)
  backslash := h.backslash_notMem_render
  path := by
    rw [h.splitScheme_render]
    exact h.route.isPath

/-- Whatever a text names is named by its written form as well, and so
is every identity that is made of texts; its written form is normal. -/
theorem normal_eval :
    (∀ raw : String, ofString (ofString raw).render = ofString raw)
      ∧ ∀ e : Expr, ofString e.eval.render = e.eval ∧ Normal e.eval.render :=
  ⟨fun raw => ofString_render (resolved_ofString raw),
    fun e => ⟨ofString_render (resolved_eval e), (resolved_eval e).normal⟩⟩

end Purview.Uri

/-
Following a path from a folder takes the folder's segments and then the
path's, each as the path by itself would leave them (`join_relative`).
For this it is enough that a path takes back the same segments wherever
it starts: what `..` takes back in the path itself it also takes back
behind a folder, and a `..` that is left over is left for the folder
(`foldl_resolve`). So two spellings of a path that has no start of its
own lead to the same place from everywhere.

Whether a path has a start of its own is asked of its text as it stands,
before any backslash in it is turned. A text that only then has a root
or a scheme is taken for a relative path, though the identity it names
is not one; these texts and no others lead elsewhere than the other
spellings of what they name (`join_respelled_iff`).
-/
import Purview.Proofs.Resolved

namespace Purview.Uri

open splitScheme (cut)

variable {u : Uri} {relative : String}

-- =========================================================== following

/-- Only a segment that means something comes to stand on the way. -/
theorem mem_follow {absolute : Bool} {place : List String} {s t : String}
    (ht : t ∈ follow absolute place s) :
    t ∈ place ∨ t = s ∧ ¬(s = "" ∨ s = ".") := by
  rw [follow.eq_def] at ht
  split at ht
  · exact .inl ht
  next hplain =>
  have hpush (ht : t ∈ s :: place) : t ∈ place ∨ t = s ∧ ¬(s = "" ∨ s = ".") :=
    (List.mem_cons.1 ht).symm.imp_right fun heq => ⟨heq, hplain⟩
  split at ht
  · next hup =>
    subst hup
    split at ht
    · split at ht
      · exact .inl ht
      · exact hpush ht
    · split at ht
      · exact .inl (List.mem_cons_of_mem _ ht)
      · split at ht
        · exact .inl ht
        · exact hpush ht
  · exact hpush ht

/-- What a segment adds to a way, it adds to the way behind any other. -/
theorem foldl_follow (absolute : Bool) (start : List String)
    {place : List String} (h : ∀ s ∈ place, s ≠ "" ∧ s ≠ ".") (s : String) :
    (follow false place s).reverse.foldl (follow absolute) start
      = follow absolute (place.reverse.foldl (follow absolute) start) s := by
  by_cases hplain : s = "" ∨ s = "."
  · rw [follow.eq_def, follow.eq_def, if_pos hplain, if_pos hplain]
  have hpush : (s :: place).reverse.foldl (follow absolute) start
      = follow absolute (place.reverse.foldl (follow absolute) start) s := by
    rw [List.reverse_cons, List.foldl_append]
    rfl
  rw [follow.eq_def false, if_neg hplain]
  split
  · next hup =>
    subst hup
    cases place with
    | nil => exact hpush
    | cons name outer =>
      dsimp only
      split
      · -- the name that is taken back is the last that was followed
        next hname =>
        have hplain' : ¬(name = "" ∨ name = ".") :=
          not_or.2 (h name List.mem_cons_self)
        rw [List.reverse_cons, List.foldl_append, List.foldl_cons,
          List.foldl_nil, follow.eq_def absolute _ name, if_neg hplain',
          if_neg hname]
        simp [follow.eq_def, hname]
      · exact hpush
  · exact hpush

/-- A path leads on from anywhere as what it leaves by itself does. -/
theorem foldl_resolve (absolute : Bool) (start segments : List String) :
    (resolve false segments).foldl (follow absolute) start
      = segments.foldl (follow absolute) start := by
  suffices hplace : ∀ place : List String, (∀ s ∈ place, s ≠ "" ∧ s ≠ ".") →
      (segments.foldl (follow false) place).reverse.foldl
        (follow absolute) start
        = segments.foldl (follow absolute)
          (place.reverse.foldl (follow absolute) start) from
    hplace [] (by simp)
  induction segments with
  | nil => exact fun _ _ => rfl
  | cons s segments ih =>
    intro place h
    rw [List.foldl_cons, List.foldl_cons, ← foldl_follow absolute start h]
    refine ih _ fun t ht => ?_
    rcases mem_follow ht with ht | ⟨rfl, hplain⟩
    · exact h t ht
    · exact not_or.1 hplain

/-- Segments are followed one after another. -/
theorem resolve_append (absolute : Bool) (xs ys : List String) :
    resolve absolute (xs ++ ys)
      = (ys.foldl (follow absolute) (resolve absolute xs).reverse).reverse := by
  rw [resolve, List.foldl_append, resolve, List.reverse_reverse]

/-- Behind a way, a path may be resolved by itself first. -/
theorem resolve_append_resolve (absolute : Bool) (xs ys : List String) :
    resolve absolute (xs ++ resolve false ys)
      = resolve absolute (xs ++ ys) := by
  rw [resolve_append, foldl_resolve, ← resolve_append]

-- ======================================================= where it starts

/-- A text that says where its path starts: at a root, or under a
scheme. -/
def Rooted (text : List Char) : Prop :=
  text.head? = some '/' ∨ (cut text).isSome

/-- A text that says so only when its backslashes are turned. -/
def Disguised (relative : String) : Prop :=
  Rooted (slashed relative.toList) ∧ ¬Rooted relative.toList

theorem cut_cons_eq_none {text : List Char} {c : Char} :
    cut (c :: text) = none
      ↔ cut text = none ∧ ¬(c = ':' ∧ ['/', '/'] <+: text) := by
  by_cases hends : c = ':' ∧ ['/', '/'] <+: text
  · obtain ⟨rfl, rest, rfl⟩ := hends
    simp [cut]
  · rw [cut, Option.map_eq_none_iff, and_iff_left hends]
    rintro rest rfl rfl
    exact hends ⟨rfl, rest, rfl⟩

theorem isSome_cut_cons {text : List Char} (h : (cut text).isSome) (c : Char) :
    (cut (c :: text)).isSome := by
  rw [Option.isSome_iff_ne_none] at h ⊢
  exact fun hcons => h (cut_cons_eq_none.1 hcons).1

theorem isSome_cut_slashed {text : List Char} (h : (cut text).isSome) :
    (cut (slashed text)).isSome := by
  fun_induction cut text with
  | case1 => rfl
  | case2 c rest _ ih => exact isSome_cut_cons (ih (by simpa using h)) _
  | case3 => cases h

theorem Rooted.slashed {text : List Char} (h : Rooted text) :
    Rooted (slashed text) := by
  rcases h with hhead | hcut
  · cases text with
    | nil => cases hhead
    | cons c text =>
      obtain rfl := Option.some.inj hhead
      exact .inl rfl
  · exact .inr (isSome_cut_slashed hcut)

/-- A path has no scheme behind a slash if it has none in front and no
slash there to make one with. -/
theorem cut_append_slash {front back : List Char}
    (hfront : cut (front ++ ['/']) = none) (hback : ¬Rooted back) :
    cut (front ++ '/' :: back) = none := by
  obtain ⟨hhead, hcut⟩ := not_or.1 hback
  rw [Option.not_isSome_iff_eq_none] at hcut
  induction front with
  | nil => exact cut_cons_eq_none.2 ⟨hcut, fun h => absurd h.1 (by decide)⟩
  | cons c front ih =>
    obtain ⟨hrest, hcolon⟩ := cut_cons_eq_none.1 hfront
    refine cut_cons_eq_none.2 ⟨ih hrest, fun ⟨hc, hslashes⟩ => ?_⟩
    rcases front with _ | ⟨a, _ | ⟨b, front⟩⟩
    · obtain ⟨rest, hrest⟩ := (List.cons_prefix_cons.1 hslashes).2
      exact hhead (by rw [← hrest]; rfl)
    · exact hcolon ⟨hc, by simpa using hslashes⟩
    · exact hcolon ⟨hc, by simpa using hslashes⟩

-- ============================================================= following

/-- What a text names that says nowhere to start. -/
theorem ofString_relative (h : ¬Rooted (slashed relative.toList)) :
    ofString relative
      = ⟨"", false, resolve false (steps (slashed relative.toList))⟩ := by
  obtain ⟨hhead, hcut⟩ := not_or.1 h
  rw [Option.not_isSome_iff_eq_none] at hcut
  rw [ofString, ofChars_of_splitScheme (splitScheme_of_cut_eq_none hcut),
    decide_eq_false hhead]

/-- A slash separates segments. -/
theorem steps_append_slash (front back : List Char) :
    steps (front ++ '/' :: back) = steps front ++ steps back := by
  rw [steps, List.splitOn_append_cons_self, List.map_append]
  rfl

/-- Following a relative path goes on from the folder's segments. -/
theorem Resolved.join_relative (hu : Resolved u)
    (h : ¬Rooted (slashed relative.toList)) :
    u.join relative = { u with
      segments := resolve u.absolute
        (u.segments ++ (ofString relative).segments) } := by
  have hplain : ¬Rooted relative.toList := fun hr => h hr.slashed
  obtain ⟨hhead, hcut⟩ := not_or.1 h
  rw [Option.not_isSome_iff_eq_none] at hcut
  rw [ofString_relative h, resolve_append_resolve, join,
    if_neg (by simpa [Rooted] using hplain)]
  split
  · next hpath =>
    have htext : slashed (u.render ++ "/" ++ relative).toList
        = u.scheme.toList ++ (pathChars u.absolute u.segments
          ++ '/' :: slashed relative.toList) := by
      rw [String.toList_append, String.toList_append, slashed_append,
        slashed_append, slashed_eq_self hu.backslash_notMem_render,
        toList_render, List.append_assoc, List.append_assoc]
      rfl
    have hsplit := hu.splitScheme_append
      (cut_append_slash hu.route.cut_pathChars_concat h)
    have habs : (pathChars u.absolute u.segments
        ++ '/' :: slashed relative.toList).head? = some '/'
          ↔ u.absolute = true := by
      rw [← hu.route.head?_pathChars]
      cases hchars : pathChars u.absolute u.segments with
      | nil => simp [hu.route.pathChars_eq_nil.1 hchars] at hpath
      | cons c path => rfl
    rw [ofString, ofChars_of_splitScheme (htext ▸ hsplit),
      steps_append_slash]
    simp only [habs, Bool.decide_eq_true, String.ofList_toList, resolve_append,
      hu.route.resolve_steps, resolve_route hu.route]
  · next hroot =>
    have htext : slashed (u.scheme ++ relative).toList
        = u.scheme.toList ++ slashed relative.toList := by
      rw [String.toList_append, slashed_append, slashed_eq_self hu.backslash]
    have hsplit := hu.splitScheme_append hcut
    have hroot : u.absolute = false ∧ u.segments = [] := by simpa using hroot
    rw [ofString, ofChars_of_splitScheme (htext ▸ hsplit),
      decide_eq_false hhead, String.ofList_toList, hroot.1, hroot.2]
    rfl

-- =========================================================== spellings

/-- A text is rooted if what it names has a scheme or is absolute. -/
theorem rooted_iff (raw : String) :
    Rooted (slashed raw.toList)
      ↔ (ofString raw).scheme ≠ "" ∨ (ofString raw).absolute = true := by
  cases hcut : cut (slashed raw.toList) with
  | none =>
    rw [ofString, ofChars_of_splitScheme (splitScheme_of_cut_eq_none hcut),
      Rooted, hcut]
    simp
  | some parts =>
    obtain ⟨scheme, path⟩ := parts
    have hne : String.ofList scheme ≠ "" := by
      rintro hnil
      have hscheme := (eq_of_cut hcut).2
      rw [String.ofList_eq_empty_iff.1 hnil] at hscheme
      cases hscheme
    rw [ofString, ofChars_of_splitScheme (splitScheme_of_cut hcut), Rooted,
      hcut]
    exact iff_of_true (.inr rfl) (.inl hne)

/-- The written form of what a text names says where it starts, if its
path has a start of its own. -/
theorem not_disguised_render (h : Resolved u) : ¬Disguised u.render := by
  rintro ⟨hslashed, hplain⟩
  rw [slashed_eq_self h.backslash_notMem_render] at hslashed
  exact hplain hslashed

/-- From any folder a rooted text leads to what it names. -/
theorem join_rooted (h : Rooted relative.toList) :
    u.join relative = ofString relative := by
  rw [join, if_pos (by simpa [Rooted] using h)]

theorem join_respelled {r₁ r₂ : String} (hu : Resolved u)
    (h : ofString r₁ = ofString r₂) (h₁ : ¬Disguised r₁)
    (h₂ : ¬Disguised r₂) : u.join r₁ = u.join r₂ := by
  have hiff : Rooted (slashed r₁.toList) ↔ Rooted (slashed r₂.toList) := by
    rw [rooted_iff, rooted_iff, h]
  by_cases hr : Rooted (slashed r₁.toList)
  · have hr₁ : Rooted r₁.toList := not_not.1 fun hn => h₁ ⟨hr, hn⟩
    have hr₂ : Rooted r₂.toList := not_not.1 fun hn => h₂ ⟨hiff.1 hr, hn⟩
    rw [join_rooted hr₁, join_rooted hr₂, h]
  · rw [hu.join_relative hr, hu.join_relative (fun h => hr (hiff.2 h)), h]

/-- A text that is disguised is not followed to what it names. -/
theorem join_disguised (h : Disguised relative) :
    (ofString "a").join relative ≠ ofString relative := by
  have hjoin : (ofString "a").join relative
      = ofString ("a/" ++ relative) := by
    rw [join, if_neg (by simpa [Rooted] using h.2)]
    rfl
  have htext : slashed ("a/" ++ relative).toList
      = 'a' :: '/' :: slashed relative.toList := by
    rw [String.toList_append, slashed_append]
    rfl
  rw [hjoin]
  cases hcut : cut (slashed relative.toList) with
  | none =>
    -- the root is lost
    have hhead := h.1.resolve_right (by simp [hcut])
    have hfree : cut ('a' :: '/' :: slashed relative.toList) = none := by
      simp [cut_cons_eq_none, hcut]
    rw [← htext] at hfree
    rw [ofString, ofString,
      ofChars_of_splitScheme (splitScheme_of_cut_eq_none hfree),
      ofChars_of_splitScheme (splitScheme_of_cut_eq_none hcut), htext, hhead]
    intro heq
    have habs := congrArg Uri.absolute heq
    simp at habs
  | some parts =>
    -- the scheme begins with what it is followed from
    obtain ⟨scheme, path⟩ := parts
    have hlonger : cut ('a' :: '/' :: slashed relative.toList)
        = some ('a' :: '/' :: scheme, path) := by
      rw [cut, cut, hcut] <;> simp
    rw [← htext] at hlonger
    rw [ofString, ofString,
      ofChars_of_splitScheme (splitScheme_of_cut hlonger),
      ofChars_of_splitScheme (splitScheme_of_cut hcut)]
    intro heq
    have hscheme := String.ofList_injective (congrArg Uri.scheme heq)
    have hlength := congrArg List.length hscheme
    simp only [List.length_cons] at hlength
    omega

/-- A text is followed to the same place as any other spelling of what
it names, from wherever it is followed, unless it is disguised. -/
theorem join_respelled_iff (relative : String) :
    (∀ (e : Expr) (other : String), ofString relative = ofString other →
        ¬Disguised other → e.eval.join relative = e.eval.join other)
      ↔ ¬Disguised relative := by
  constructor
  · intro h hd
    have hresolved := resolved_ofString relative
    have hrender := ofString_render hresolved
    have hjoin := h (.ofString "a") (ofString relative).render hrender.symm
      (not_disguised_render hresolved)
    have hrooted : Rooted (ofString relative).render.toList := by
      rw [← slashed_eq_self hresolved.backslash_notMem_render, rooted_iff,
        hrender, ← rooted_iff]
      exact hd.1
    rw [join_rooted hrooted, hrender] at hjoin
    exact join_disguised hd hjoin
  · exact fun hplain e other h hother =>
      join_respelled (resolved_eval e) h hplain hother

/-- A backslash in front is a root to the identity, and none to who
follows it. -/
theorem not_join_respelled :
    ofString "\\x" = ofString "/x"
      ∧ (ofString "/p").join "\\x" ≠ (ofString "/p").join "/x" := by
  decide +kernel

end Purview.Uri

/-
A document lies within a folder if the folder's segments begin its own
(`isWithin_iff`). What is left of its segments then leads from the folder
to the document, and joining it to the folder gives the document back,
provided that it takes nothing back by itself (`join_names`).

It does so in one case only. A relative folder that is nothing but `..`,
or is where paths start, begins the segments of folders that lie further
out: `..` is a beginning of `../..`, and nothing of `..`. Such a folder
holds, by its segments, what lies around it (`Outward`), and these are
all the places at which lying within is not lying beneath.

The question is put to the two written forms in the same terms: one text
is a proper beginning of the other and ends in front of a slash
(`Resolved.isWithin_render`).
-/
import Purview.Proofs.Relative

namespace Purview.Uri

variable {u f : Uri} {names : List String}

-- ========================================================== vocabulary

/-- A document lies beneath a folder if names lead down to it. -/
def Beneath (u f : Uri) : Prop :=
  ∃ names : List String, names ≠ [] ∧ (∀ s ∈ names, IsName s)
    ∧ f.join ("/".intercalate names) = u

/-- A document lies outward of a folder if both are relative, the folder
is reached by `..` alone, and the document by one `..` more. -/
structure Outward (u f : Uri) : Prop where
  scheme : u.scheme = f.scheme
  relative : u.absolute = false ∧ f.absolute = false
  ups : ∀ s ∈ f.segments, s = ".."
  further : f.segments ++ [".."] <+: u.segments

-- ============================================================= segments

theorem isWithin_iff : u.isWithin f = true
    ↔ u.scheme = f.scheme ∧ u.absolute = f.absolute
      ∧ ∃ rest, rest ≠ [] ∧ u.segments = f.segments ++ rest := by
  rw [isWithin]
  simp only [Bool.and_eq_true, beq_iff_eq, decide_eq_true_eq,
    List.isPrefixOf_iff_prefix, and_assoc]
  refine and_congr_right fun _ => and_congr_right fun _ => ?_
  constructor
  · rintro ⟨⟨rest, hrest⟩, hlength⟩
    refine ⟨rest, ?_, hrest.symm⟩
    rintro rfl
    rw [← hrest, List.append_nil] at hlength
    exact Nat.lt_irrefl _ hlength
  · rintro ⟨rest, hne, hrest⟩
    refine ⟨⟨rest, hrest.symm⟩, ?_⟩
    rw [hrest, List.length_append]
    exact Nat.lt_add_of_pos_right (List.length_pos_of_ne_nil hne)

/-- Names lead down from a folder, one after another. -/
theorem Resolved.join_names (hf : Resolved f) (hnames : ∀ s ∈ names, IsName s) :
    f.join ("/".intercalate names)
      = { f with segments := f.segments ++ names } := by
  have hroute : Route false names := .of_names hnames
  have hresolved : Resolved ⟨"", false, names⟩ :=
    ⟨.inl rfl, List.not_mem_nil, hroute⟩
  have hrender : (⟨"", false, names⟩ : Uri).render = "/".intercalate names := by
    simp [render, path]
  have hrel : ¬Rooted (slashed ("/".intercalate names).toList) := by
    rw [← hrender, rooted_iff, ofString_render hresolved]
    simp
  rw [hf.join_relative hrel, ← hrender, ofString_render hresolved,
    resolve_route (hf.route.append_names hnames)]

theorem beneath_iff (hf : Resolved f) : Beneath u f
    ↔ u.scheme = f.scheme ∧ u.absolute = f.absolute
      ∧ ∃ names, names ≠ [] ∧ (∀ s ∈ names, IsName s)
        ∧ u.segments = f.segments ++ names := by
  constructor
  · rintro ⟨names, hne, hnames, rfl⟩
    rw [hf.join_names hnames]
    exact ⟨rfl, rfl, names, hne, hnames, rfl⟩
  · rintro ⟨hscheme, habs, names, hne, hnames, hseg⟩
    refine ⟨names, hne, hnames, ?_⟩
    rw [hf.join_names hnames, ← hscheme, ← habs, ← hseg]

/-- Of what is left of a route all are names, or else it goes on with
`..`, and nothing but `..` stands before. -/
theorem Route.names_or_up {absolute : Bool} {front rest : List String}
    (h : Route absolute (front ++ rest)) :
    (∀ s ∈ rest, IsName s)
      ∨ absolute = false ∧ (∀ s ∈ front, s = "..") ∧ [".."] <+: rest := by
  by_cases hup : ".." ∈ rest
  · obtain ⟨-, hrest, hfront⟩ := List.pairwise_append.1 h.up
    cases rest with
    | nil => cases hup
    | cons r rest =>
      have hr : r = ".." := (List.mem_cons.1 hup).elim Eq.symm
        fun hup => List.rel_of_pairwise_cons hrest hup rfl
      subst hr
      refine .inr ⟨?_, fun s hs => hfront s hs ".." (by simp) rfl, rest, rfl⟩
      exact Bool.eq_false_iff.2 fun ha => h.rooted ha (by simp)
  · refine .inl fun s hs => ?_
    exact (h.step s (List.mem_append_right _ hs)).resolve_right
      fun heq => hup (heq ▸ hs)

-- ============================================================== texts

/-- The question put to written forms: whether the schemes agree and one
path goes on where the other ends, behind a slash. -/
def textWithin (text folder : String) : Bool :=
  let (scheme, path) := splitScheme text.toList
  let (folderScheme, folderPath) := splitScheme folder.toList
  if folderScheme ≠ scheme then false
  else if folderPath = [] then path ≠ [] && path.head? ≠ some '/'
  else if folderPath.getLast? = some '/' then
    folderPath.length < path.length && folderPath.isPrefixOf path
  else
    folderPath.length < path.length && folderPath.isPrefixOf path
      && path[folderPath.length]? = some '/'

/-- A path goes on behind another and a slash if its segments do. -/
theorem Route.slash_prefix_iff {a b : Bool} {xs ys : List String}
    (hx : Route a xs) (hy : Route b ys) (hne : ys ≠ []) :
    pathChars b ys ++ ['/'] <+: pathChars a xs
      ↔ a = b ∧ ∃ rest, rest ≠ [] ∧ xs = ys ++ rest := by
  constructor
  · rintro ⟨rest, hrest⟩
    rw [List.append_assoc, List.singleton_append] at hrest
    have hfront : pathChars b ys ≠ [] := fun hnil =>
      hne (hy.pathChars_eq_nil.1 hnil).2
    have habs : a = b := by
      rw [Bool.eq_iff_iff, ← hx.head?_pathChars, ← hy.head?_pathChars, ← hrest,
        List.head?_append_of_ne_nil _ hfront]
    subst habs
    have hxs : xs ≠ [] := by
      rintro rfl
      have hlength := congrArg List.length hrest
      have hpos := List.length_pos_of_ne_nil hfront
      cases a <;> simp [pathChars] at hlength hpos
    refine ⟨rfl, steps rest, by simp [steps], ?_⟩
    have hsteps := congrArg steps hrest
    rw [steps_append_slash, hy.steps_pathChars hne, hx.steps_pathChars hxs,
      List.append_assoc] at hsteps
    exact (List.append_cancel_left hsteps).symm
  · rintro ⟨rfl, rest, hrest, rfl⟩
    refine ⟨pathChars false rest, ?_⟩
    rw [pathChars_append hne hrest, List.append_assoc]
    rfl

/-- A path goes on behind the root if it has a root and segments. -/
theorem Route.root_prefix_iff {a : Bool} {xs : List String} (h : Route a xs) :
    1 < (pathChars a xs).length ∧ ['/'] <+: pathChars a xs
      ↔ a = true ∧ xs ≠ [] := by
  cases a with
  | false =>
    refine iff_of_false (fun ⟨_, rest, hrest⟩ => ?_) (by simp)
    exact Bool.false_ne_true (h.head?_pathChars.1 (by rw [← hrest]; rfl))
  | true =>
    have hrelative : Route false xs := ⟨h.step, h.up, by simp⟩
    have hcons : pathChars true xs = '/' :: pathChars false xs := rfl
    rw [hcons, List.length_cons, Nat.lt_add_left_iff_pos,
      List.length_pos_iff, Ne, hrelative.pathChars_eq_nil]
    simp

theorem concat_prefix_iff {front path : List Char} {c : Char} :
    front ++ [c] <+: path
      ↔ front.length < path.length ∧ front <+: path
        ∧ path[front.length]? = some c := by
  constructor
  · rintro ⟨rest, rfl⟩
    simp
  · rintro ⟨-, ⟨rest, rfl⟩, hc⟩
    cases rest with
    | nil => simp at hc
    | cons d rest =>
      obtain rfl : d = c := by simpa using hc
      exact ⟨rest, by simp⟩

/-- Lying within is seen on the written forms. -/
theorem Resolved.isWithin_render (hu : Resolved u) (hf : Resolved f) :
    u.isWithin f = textWithin u.render f.render := by
  rw [Bool.eq_iff_iff, isWithin_iff, textWithin, hu.splitScheme_render,
    hf.splitScheme_render]
  dsimp only
  split
  · next hscheme =>
    refine iff_of_false (fun h => hscheme ?_) Bool.false_ne_true
    rw [h.1]
  next hscheme =>
  have hscheme : u.scheme = f.scheme :=
    (String.toList_inj.1 (not_not.1 hscheme)).symm
  rw [and_iff_right hscheme]
  split
  · next hnil =>
    obtain ⟨habs, hseg⟩ := hf.route.pathChars_eq_nil.1 hnil
    simp only [habs, hseg, Bool.and_eq_true, decide_eq_true_eq, ne_eq,
      hu.route.pathChars_eq_nil, hu.route.head?_pathChars]
    cases u.absolute <;> simp
  next hnil =>
  rcases eq_or_ne f.segments [] with hseg | hne
  · -- of the folders without segments only the root is written
    have habs : f.absolute = true := Bool.of_not_eq_false
      fun habs => hnil (hf.route.pathChars_eq_nil.2 ⟨habs, hseg⟩)
    rw [habs, hseg]
    change _ ↔ (decide (1 < (pathChars u.absolute u.segments).length)
      && ['/'].isPrefixOf (pathChars u.absolute u.segments)) = true
    rw [Bool.and_eq_true, decide_eq_true_eq, List.isPrefixOf_iff_prefix,
      hu.route.root_prefix_iff]
    simp
  · have hlast : (pathChars f.absolute f.segments).getLast? ≠ some '/' :=
      fun hlast => (List.isChain_append.1
        (hf.route.isChain_pathChars_concat hne)).2.2 '/' hlast '/' rfl rfl rfl
    rw [if_neg hlast, ← hu.route.slash_prefix_iff hf.route hne,
      concat_prefix_iff]
    simp [and_assoc]

-- ============================================================= beneath

/-- A document lies within a folder if it lies beneath it, or outward of
it; and never is it both. -/
theorem isWithin_iff_beneath_or_outward (s t : String) :
    ((ofString s).isWithin (ofString t) = true
        ↔ Beneath (ofString s) (ofString t) ∨ Outward (ofString s) (ofString t))
      ∧ ¬(Beneath (ofString s) (ofString t)
        ∧ Outward (ofString s) (ofString t)) := by
  have hu := resolved_ofString s
  have hf := resolved_ofString t
  generalize ofString s = u at hu ⊢
  generalize ofString t = f at hf ⊢
  rw [isWithin_iff, beneath_iff hf]
  constructor
  · constructor
    · rintro ⟨hscheme, habs, rest, hne, hseg⟩
      have hroute := hu.route
      rw [hseg] at hroute
      rcases hroute.names_or_up with hnames | ⟨hrel, hups, hfurther⟩
      · exact .inl ⟨hscheme, habs, rest, hne, hnames, hseg⟩
      · refine .inr ⟨hscheme, ⟨hrel, habs ▸ hrel⟩, hups, ?_⟩
        rw [hseg, List.prefix_append_right_inj]
        exact hfurther
    · rintro (⟨hscheme, habs, names, hne, -, hseg⟩ | hout)
      · exact ⟨hscheme, habs, names, hne, hseg⟩
      · obtain ⟨rest, hrest⟩ := hout.further
        refine ⟨hout.scheme, hout.relative.1.trans hout.relative.2.symm,
          ".." :: rest, List.cons_ne_nil _ _, ?_⟩
        rw [← hrest, List.append_assoc]
        rfl
  · rintro ⟨⟨-, -, names, -, hnames, hseg⟩, hout⟩
    have hup := hout.further
    rw [hseg, List.prefix_append_right_inj] at hup
    exact (hnames ".." (hup.subset (by simp))).ne_up rfl

/-- What lies around the place where paths start counts as within it. -/
theorem not_beneath_outside :
    (ofString "../a").isWithin (ofString "") = true
      ∧ ¬Beneath (ofString "../a") (ofString "") := by
  refine ⟨by decide +kernel, ?_⟩
  rw [beneath_iff (resolved_ofString "")]
  rintro ⟨-, -, names, -, hnames, hseg⟩
  have hmem : ".." ∈ names := by
    have hup : ".." ∈ (ofString "../a").segments := by decide +kernel
    rw [hseg] at hup
    exact (List.mem_append.1 hup).resolve_left (by decide +kernel)
  exact (hnames _ hmem).ne_up rfl

end Purview.Uri

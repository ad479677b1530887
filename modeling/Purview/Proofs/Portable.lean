/-
A builtin from a folder is known by the names that lead to it from there,
and by nothing else: the folder may be moved, and its path may be spelled
in any way (`builtinUri_extend`).

Those names are found in two steps. The path of a file is the folder's
path with names put behind it, and what it names goes on from what the
folder's path names by just these names (`ofString_extend`). The
difficulty is the slash between the two. It must add nothing by itself,
though a slash at the end of a text can make a scheme of what stands
before it; it does not, since it is put only where none is
(`ofString_concat_slash`). Then the written form of the folder is taken
off the front of the written form of the file. What is left are the
names, behind a slash or without one: a root brings its slash along, and
the place where relative paths start has none (`toList_render_beneath`).
-/
import Purview.Disk.Loader
import Purview.Proofs.Relative

namespace Purview

namespace Uri

open splitScheme (cut)

variable {absolute : Bool} {names : List String} {d : String}

-- ======================================================= names behind

/-- Names lead on from wherever they are followed. -/
theorem resolve_append_names (h : ∀ s ∈ names, IsName s)
    (xs : List String) :
    resolve absolute (xs ++ names) = resolve absolute xs ++ names := by
  induction names generalizing xs with
  | nil => rw [List.append_nil, List.append_nil]
  | cons s names ih =>
    have hs : IsName s := h s List.mem_cons_self
    have hstep : resolve absolute (xs ++ [s]) = resolve absolute xs ++ [s] := by
      rw [resolve_append, List.foldl_cons, List.foldl_nil, follow_name hs,
        List.reverse_cons, List.reverse_reverse]
    have hrest := ih (fun t ht => h t (List.mem_cons_of_mem _ ht)) (xs ++ [s])
    rw [← List.append_cons, hstep, ← List.append_cons] at hrest
    exact hrest

/-- Names in a row start at no root. -/
theorem not_rooted_pathChars (h : Route false names) :
    ¬Rooted (pathChars false names) := by
  rintro (hhead | hcut)
  · exact Bool.false_ne_true (h.head?_pathChars.1 hhead)
  · rw [h.cut_pathChars] at hcut
    cases hcut

theorem toList_names (names : List String) :
    ("/".intercalate names).toList = pathChars false names := by
  rw [String.toList_intercalate]
  rfl

/-- Behind a slash, or at the start, the segments of what is put there
follow. -/
theorem exists_steps_append {path : List Char}
    (h : path = [] ∨ path.getLast? = some '/') :
    ∃ front, ∀ rest, steps (path ++ rest) = front ++ steps rest := by
  rcases h with rfl | hlast
  · exact ⟨[], fun _ => rfl⟩
  · obtain ⟨before, rfl⟩ := List.getLast?_eq_some_iff.1 hlast
    refine ⟨steps before, fun rest => ?_⟩
    rw [List.append_assoc]
    exact steps_append_slash before rest

/-- Names behind a path lead down from where the path leads. -/
theorem resolve_steps_append {path : List Char}
    (hpath : path = [] ∨ path.getLast? = some '/')
    (h : ∀ s ∈ names, IsName s) :
    resolve absolute (steps (path ++ pathChars false names))
      = resolve absolute (steps path) ++ names := by
  obtain ⟨front, hfront⟩ := exists_steps_append hpath
  -- the same for names and for none, since the path itself ends there
  have hbehind (names : List String) (h : ∀ s ∈ names, IsName s) :
      resolve absolute (steps (path ++ pathChars false names))
        = resolve absolute front ++ names := by
    rw [hfront, ← resolve_append_resolve, (Route.of_names h).resolve_steps,
      resolve_append_names h]
  have hnone := hbehind [] (by simp)
  rw [show pathChars false [] = [] from rfl, List.append_nil,
    List.append_nil] at hnone
  rw [hbehind names h, hnone]

-- ============================================================ schemes

/-- Behind a slash the scheme is settled. -/
theorem splitScheme_append {text rest : List Char}
    (hlast : text.getLast? = some '/') (hrest : ¬Rooted rest) :
    ∃ scheme path, splitScheme text = (scheme, path)
      ∧ splitScheme (text ++ rest) = (scheme, path ++ rest)
      ∧ (path = [] ∨ path.getLast? = some '/') := by
  cases hcut : cut text with
  | none =>
    obtain ⟨front, rfl⟩ := List.getLast?_eq_some_iff.1 hlast
    have hmore : cut (front ++ ['/'] ++ rest) = none := by
      rw [List.append_assoc]
      exact cut_append_slash hcut hrest
    exact ⟨[], front ++ ['/'], splitScheme_of_cut_eq_none hcut,
      splitScheme_of_cut_eq_none hmore, .inr hlast⟩
  | some parts =>
    obtain ⟨scheme, path⟩ := parts
    refine ⟨scheme, path, splitScheme_of_cut hcut,
      splitScheme_of_cut (cut_append hcut rest), ?_⟩
    rcases eq_or_ne path [] with hnil | hne
    · exact .inl hnil
    · rw [(eq_of_cut hcut).1, List.getLast?_append_of_ne_nil _ hne] at hlast
      exact .inr hlast

/-- A scheme ends in a slash. -/
theorem getLast?_of_cut {text front back : List Char}
    (h : cut text = some (front, back)) : front.getLast? = some '/' := by
  fun_induction cut text generalizing front back with
  | case1 rest =>
    cases h
    rfl
  | case2 c rest _ ih =>
    obtain ⟨⟨front, back⟩, hrest, heq⟩ := Option.map_eq_some_iff.1 h
    cases heq
    have hfront := ih hrest
    rw [List.getLast?_cons, hfront]
    rfl
  | case3 => cases h

/-- One slash at the end makes no scheme. -/
theorem cut_concat_slash {text : List Char} (h : cut text = none)
    (hlast : text.getLast? ≠ some '/') : cut (text ++ ['/']) = none := by
  induction text with
  | nil => rfl
  | cons c text ih =>
    obtain ⟨hrest, hcolon⟩ := cut_cons_eq_none.1 h
    rcases text with _ | ⟨a, text⟩
    · simp [cut]
    have hlast' : (a :: text).getLast? ≠ some '/' := by
      rwa [List.getLast?_cons_cons] at hlast
    refine cut_cons_eq_none.2 ⟨ih hrest hlast', ?_⟩
    rintro ⟨hc, hslashes⟩
    rcases text with _ | ⟨b, text⟩
    · -- the first of two slashes would have been the last character
      obtain ⟨rfl, -⟩ := List.cons_prefix_cons.1 hslashes
      exact hlast' rfl
    · exact hcolon ⟨hc, by simpa using hslashes⟩

/-- A slash at the end does not move the end of the scheme. -/
theorem splitScheme_concat_slash {text : List Char} (hne : text ≠ [])
    (hlast : text.getLast? ≠ some '/') :
    ∃ scheme path, splitScheme text = (scheme, path) ∧ path ≠ []
      ∧ splitScheme (text ++ ['/']) = (scheme, path ++ ['/']) := by
  cases hcut : cut text with
  | none =>
    exact ⟨[], text, splitScheme_of_cut_eq_none hcut, hne,
      splitScheme_of_cut_eq_none (cut_concat_slash hcut hlast)⟩
  | some parts =>
    obtain ⟨scheme, path⟩ := parts
    refine ⟨scheme, path, splitScheme_of_cut hcut, ?_,
      splitScheme_of_cut (cut_append hcut ['/'])⟩
    rintro rfl
    rw [(eq_of_cut hcut).1, List.append_nil] at hlast
    exact hlast (getLast?_of_cut hcut)

-- ======================================================== paths on disk

/-- Without backslashes, a text names what its scheme and its path
say. -/
theorem ofString_of_splitScheme {raw : String} {scheme path : List Char}
    (hback : '\\' ∉ raw.toList) (h : splitScheme raw.toList = (scheme, path)) :
    ofString raw = ⟨String.ofList scheme, decide (path.head? = some '/'),
      resolve (decide (path.head? = some '/')) (steps path)⟩ := by
  rw [ofString]
  refine ofChars_of_splitScheme ?_
  rw [slashed_eq_self hback, h]

theorem backslash_notMem_concat_slash (hback : '\\' ∉ d.toList) :
    '\\' ∉ (d ++ "/").toList := by
  rw [String.toList_append, List.mem_append, not_or]
  exact ⟨hback, by decide⟩

/-- A slash put where none is means nothing. -/
theorem ofString_concat_slash (hne : d ≠ "")
    (hlast : d.toList.getLast? ≠ some '/') (hback : '\\' ∉ d.toList) :
    ofString (d ++ "/") = ofString d := by
  obtain ⟨scheme, path, hsplit, hpath, hmore⟩ := splitScheme_concat_slash
    (fun hnil => hne (String.toList_eq_nil_iff.1 hnil)) hlast
  have htext : (d ++ "/").toList = d.toList ++ ['/'] := String.toList_append
  have hhead : (path ++ ['/']).head? = path.head? :=
    List.head?_append_of_ne_nil _ hpath
  have hsteps (absolute : Bool) : resolve absolute (steps (path ++ ['/']))
      = resolve absolute (steps path) := by
    rw [steps_append_slash, ← resolve_append_resolve]
    exact congrArg (resolve absolute) (List.append_nil _)
  rw [← htext] at hmore
  rw [ofString_of_splitScheme (backslash_notMem_concat_slash hback) hmore,
    ofString_of_splitScheme hback hsplit, hhead, hsteps]

/-- Names behind a slash lead on from what stands before them. -/
theorem ofString_append_names (hlast : d.toList.getLast? = some '/')
    (hback : '\\' ∉ d.toList) (h : ∀ s ∈ names, IsName s) :
    ofString (d ++ "/".intercalate names) = { ofString d with
      segments := (ofString d).segments ++ names } := by
  have hroute : Route false names := .of_names h
  obtain ⟨scheme, path, hsplit, hmore, hpath⟩ :=
    splitScheme_append hlast (not_rooted_pathChars hroute)
  have htext : (d ++ "/".intercalate names).toList
      = d.toList ++ pathChars false names := by
    rw [String.toList_append, toList_names]
  have hplain : '\\' ∉ (d ++ "/".intercalate names).toList := by
    rw [htext, List.mem_append, not_or]
    exact ⟨hback, hroute.backslash_notMem_pathChars⟩
  have hhead : (path ++ pathChars false names).head? = some '/'
      ↔ path.head? = some '/' := by
    rcases eq_or_ne path [] with rfl | hne
    · refine iff_of_false (fun hhead => ?_) (by simp)
      exact Bool.false_ne_true (hroute.head?_pathChars.1 hhead)
    · rw [List.head?_append_of_ne_nil _ hne]
  rw [← htext] at hmore
  rw [ofString_of_splitScheme hplain hmore,
    ofString_of_splitScheme hback hsplit]
  simp only [hhead, resolve_steps_append hpath h]

/-- A path with a slash at its end, so that names can be put behind it. -/
def ended (d : String) : String :=
  if d.toList.getLast? = some '/' then d else d ++ "/"

/-- Extending a path puts names behind it, with a slash between. -/
theorem extend_eq (d : String) (names : List String) :
    Disk.extend d names = ended d ++ "/".intercalate names := by
  rw [Disk.extend, ended]
  split
  · rw [String.append_empty]
  · rfl

theorem getLast?_ended (d : String) : (ended d).toList.getLast? = some '/' := by
  rw [ended]
  split
  · next hlast => exact hlast
  · rw [String.toList_append]
    exact List.getLast?_concat

theorem backslash_notMem_ended (hback : '\\' ∉ d.toList) :
    '\\' ∉ (ended d).toList := by
  rw [ended]
  split
  · exact hback
  · exact backslash_notMem_concat_slash hback

/-- The slash makes no difference to what the path names. -/
theorem ofString_ended (hne : d ≠ "") (hback : '\\' ∉ d.toList) :
    ofString (ended d) = ofString d := by
  rw [ended]
  split
  · rfl
  · next hlast => exact ofString_concat_slash hne hlast hback

/-- A path followed by names leads on from what the path names. -/
theorem ofString_extend (hne : d ≠ "") (hback : '\\' ∉ d.toList)
    (h : ∀ s ∈ names, IsName s) :
    ofString (Disk.extend d names) = { ofString d with
      segments := (ofString d).segments ++ names } := by
  rw [extend_eq, ofString_append_names (getLast?_ended d)
    (backslash_notMem_ended hback) h, ofString_ended hne hback]

-- ======================================================== written forms

/-- What is beneath a folder is written as the folder, then a slash unless
there is no need for one, and then the names. -/
theorem toList_render_beneath (f : Uri) (names : List String) :
    ∃ slashes, (∀ c ∈ slashes, c = '/')
      ∧ ({ f with segments := f.segments ++ names } : Uri).render.toList
        = f.render.toList ++ (slashes ++ pathChars false names) := by
  rcases eq_or_ne names [] with rfl | hnames
  · refine ⟨[], by simp, ?_⟩
    rw [List.append_nil]
    exact (List.append_nil _).symm
  rcases eq_or_ne f.segments [] with hseg | hseg
  · refine ⟨[], by simp, ?_⟩
    rw [toList_render, toList_render, hseg, List.append_assoc]
    simp [pathChars]
  · refine ⟨['/'], by simp, ?_⟩
    rw [toList_render, toList_render, pathChars_append hseg hnames,
      List.append_assoc]
    rfl

/-- What a builtin is known by, taken apart. -/
theorem ofString_builtin (h : ∀ s ∈ names, IsName s) :
    ofString ("builtin:///" ++ "/".intercalate names)
      = ⟨Config.builtinScheme, true, names⟩ := by
  have hroute : Route true names := .of_names h
  have hcut : cut Config.builtinScheme.toList
      = some (Config.builtinScheme.toList, []) := by decide +kernel
  have hback : '\\' ∉ Config.builtinScheme.toList := by decide +kernel
  have hfront : "builtin:///".toList
      = Config.builtinScheme.toList ++ ['/'] := by
    decide +kernel
  rw [← ofString_render (u := ⟨Config.builtinScheme, true, names⟩)
    ⟨.inr hcut, hback, hroute⟩]
  refine congrArg ofString (String.toList_inj.1 ?_)
  rw [toList_render, String.toList_append, toList_names, hfront,
    List.append_assoc]
  rfl

end Uri

open Uri

variable {d : String} {names : List String}

-- ============================================================= builtins

/-- A beginning that is there can be dropped. -/
theorem dropBeginning_append (front rest : List Char) :
    dropBeginning front (front ++ rest) = some rest := by
  induction front with
  | nil => rfl
  | cons c front ih => rw [List.cons_append, dropBeginning, if_pos rfl, ih]

/-- Taking the folder off the front leaves the names. -/
theorem builtinUri_beneath (h : ∀ s ∈ names, IsName s) :
    builtinUri d { ofString d with segments := (ofString d).segments ++ names }
      = ofString ("builtin:///" ++ "/".intercalate names) := by
  obtain ⟨slashes, hslashes, hrender⟩ :=
    toList_render_beneath (ofString d) names
  have hroute : Route false names := .of_names h
  have hbelow : (slashes ++ pathChars false names).dropWhile (· = '/')
      = pathChars false names := by
    rw [List.dropWhile_append_of_pos fun c hc => by simpa using hslashes c hc]
    cases hchars : pathChars false names with
    | nil => rfl
    | cons c rest =>
      refine List.dropWhile_cons_of_neg fun hc => ?_
      obtain rfl : c = '/' := by simpa using hc
      exact Bool.false_ne_true (hroute.head?_pathChars.1 (by rw [hchars]; rfl))
  rw [builtinUri]
  dsimp only
  rw [hrender, dropBeginning_append, Option.getD_some, hbelow, ← toList_names,
    String.ofList_toList]
  rfl

/-- A file is known as a builtin by its names below the folder of
builtins, however the folder's path is spelled. So files have one builtin
identity, be it from one folder or from two, exactly if they have the same
names there. -/
theorem builtinUri_extend (hne : d ≠ "") (hback : '\\' ∉ d.toList)
    (h : ∀ s ∈ names, IsName s) :
    builtinUri d (ofString (Disk.extend d names))
        = ofString ("builtin:///" ++ "/".intercalate names)
      ∧ ∀ (other : String) (names' : List String), other ≠ "" →
          '\\' ∉ other.toList → (∀ s ∈ names', IsName s) →
        (builtinUri other (ofString (Disk.extend other names'))
            = builtinUri d (ofString (Disk.extend d names))
          ↔ names' = names) := by
  have hfile (d : String) (names : List String) (hne : d ≠ "")
      (hback : '\\' ∉ d.toList) (h : ∀ s ∈ names, IsName s) :
      builtinUri d (ofString (Disk.extend d names))
        = ofString ("builtin:///" ++ "/".intercalate names) := by
    rw [ofString_extend hne hback h, builtinUri_beneath h]
  refine ⟨hfile d names hne hback h, fun other names' hne' hback' h' => ?_⟩
  rw [hfile d names hne hback h, hfile other names' hne' hback' h',
    ofString_builtin h, ofString_builtin h']
  simp

/-- A folder that is where paths start, spelled with a detour, and one
under a scheme: the file has one identity in both. -/
theorem builtinUri_extend_respelled :
    let names := ["a:", "core.sysw"]
    ("lib/../." ≠ "" ∧ '\\' ∉ "lib/../.".toList ∧ "c://" ≠ ""
        ∧ '\\' ∉ "c://".toList ∧ ∀ s ∈ names, IsName s)
      ∧ builtinUri "lib/../." (ofString (Disk.extend "lib/../." names))
        = ofString "builtin:///a:/core.sysw"
      ∧ builtinUri "c://" (ofString (Disk.extend "c://" names))
        = builtinUri "lib/../." (ofString (Disk.extend "lib/../." names)) := by
  intro names
  have hnames : ∀ s ∈ names, IsName s := by decide +kernel
  have hback : '\\' ∉ "lib/../.".toList := by decide +kernel
  have hback' : '\\' ∉ "c://".toList := by decide +kernel
  have hboth := builtinUri_extend (by decide) hback hnames
  refine ⟨⟨by decide, hback, by decide, hback', hnames⟩, hboth.1, ?_⟩
  exact (hboth.2 "c://" names (by decide) hback' hnames).2 rfl

-- ============================================================== loading

namespace Disk

variable {disk : Disk} {c : Config}

/-- The files that are loaded are the ones that were asked for. -/
theorem uris_loadFiles {paths : List String} {files : List SourceFile}
    (h : disk.loadFiles paths = .ok files) :
    files.map (·.uri) = paths.map ofString := by
  induction paths generalizing files with
  | nil =>
    cases h
    rfl
  | cons path paths ih =>
    rw [loadFiles, loadFile] at h
    cases hread : disk.readText path with
    | error cause =>
      rw [hread] at h
      cases h
    | ok text =>
      rw [hread] at h
      cases hrest : disk.loadFiles paths with
      | error cause =>
        rw [hrest] at h
        cases h
      | ok rest =>
        rw [hrest] at h
        cases h
        rw [List.map_cons, List.map_cons, ih hrest]

theorem ne_nil_of_mem_filesBelow {place : List String}
    (h : names ∈ disk.filesBelow place) : names ≠ [] := by
  rw [filesBelow, List.mem_mergeSort, List.mem_filterMap] at h
  obtain ⟨⟨there, entry⟩, -, hentry⟩ := h
  cases entry with
  | folder => cases hentry
  | file bytes =>
    dsimp only at hentry
    split at hentry
    · next hbelow =>
      cases hentry
      rw [Ne, List.drop_eq_nil_iff]
      exact Nat.not_le.2 hbelow.2
    · cases hentry

/-- The names behind a path are the last ones of the extended path. -/
theorem exists_namesOf_extend (d : String) (hne : names ≠ [])
    (h : ∀ s ∈ names, IsName s) :
    ∃ front, namesOf (extend d names) = front ++ names := by
  have hsteps : steps (pathChars false names) = names :=
    Route.steps_pathChars (.of_names h) hne
  obtain ⟨front, hfront⟩ := exists_steps_append (.inr (getLast?_ended d))
  refine ⟨front, ?_⟩
  rw [extend_eq, namesOf, String.toList_append, toList_names]
  exact (hfront _).trans (congrArg _ hsteps)

/-- The last name on the path of a file is the last of its names below the
folder. -/
theorem fileName?_extend (hne : names ≠ []) (h : ∀ s ∈ names, IsName s) :
    Config.fileName? (extend d names) = names.getLast? := by
  obtain ⟨front, hfront⟩ := exists_namesOf_extend d hne h
  have hkept : names.filter (fun name => name ≠ "" ∧ name ≠ ".") = names :=
    List.filter_eq_self.2 fun s hs => by
      simpa using ⟨(h s hs).ne_empty, (h s hs).ne_dot⟩
  have hplace : (placeOf (extend d names)).getLast? = names.getLast? := by
    rw [placeOf, hfront, List.filter_append, hkept,
      List.getLast?_append_of_ne_nil _ hne]
  obtain ⟨last, hlast⟩ := Option.ne_none_iff_exists'.1
    (mt List.getLast?_eq_none_iff.1 hne)
  have hname : IsName last := h last (List.mem_of_getLast? hlast)
  rw [Config.fileName?, hplace, hlast]
  exact if_neg hname.ne_up

/-- The empty text is no folder. -/
theorem folder?_empty : disk.folder? "" = none := by
  have hlocate : disk.locate "" = .error .notFound := rfl
  rw [folder?, hlocate]

/-- The builtins from a folder are known by the names of the documents
below it. Where the folder is and how its path is spelled does not show. -/
theorem uris_loadBuiltins {folder : String} {place : List String}
    {files : List SourceFile} (hback : '\\' ∉ folder.toList)
    (hplace : disk.folder? folder = some place)
    (hnames : ∀ names ∈ disk.filesBelow place, ∀ s ∈ names, IsName s)
    (hload : disk.loadBuiltins c folder = .ok files) :
    files.map (·.uri)
      = ((disk.filesBelow place).filter fun names =>
          (names.getLast?.bind extensionOf).any (· ∈ c.extensions)).map
        fun names => ⟨Config.builtinScheme, true, names⟩ := by
  have hne : folder ≠ "" := by
    rintro rfl
    rw [folder?_empty] at hplace
    cases hplace
  have huri : ∀ names ∈ disk.filesBelow place,
      builtinUri folder (ofString (extend folder names))
        = ⟨Config.builtinScheme, true, names⟩ := fun names hmem => by
    rw [ofString_extend hne hback (hnames names hmem),
      builtinUri_beneath (hnames names hmem),
      ofString_builtin (hnames names hmem)]
  have haccepts : ∀ names ∈ disk.filesBelow place,
      c.accepts (extend folder names)
        = (names.getLast?.bind extensionOf).any (· ∈ c.extensions) :=
    fun names hmem => by
      rw [Config.accepts, fileName?_extend (ne_nil_of_mem_filesBelow hmem)
        (hnames names hmem)]
  rw [loadBuiltins, loadFolder, documents, hplace] at hload
  dsimp only at hload
  cases hfiles : disk.loadFiles
      (((disk.filesBelow place).map (extend folder)).filter c.accepts) with
  | error cause =>
    rw [hfiles] at hload
    cases hload
  | ok loaded =>
    rw [hfiles] at hload
    cases hload
    have hloaded := congrArg (List.map (builtinUri folder))
      (uris_loadFiles hfiles)
    rw [List.filter_map] at hloaded
    simp only [List.map_map, Function.comp_def] at hloaded ⊢
    rw [hloaded, List.filter_congr haccepts]
    exact List.map_congr_left fun names hmem =>
      huri names (List.mem_of_mem_filter hmem)

end Disk

end Purview

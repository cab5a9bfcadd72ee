import ClassDocs.Batch
import ClassDocs.Proofs.Segments

/-!
# The paths of pages

The file of a class lies where its name says: the segments of the name below a namespace are the
directories and the file, and the last one has an extension (`fileParts`). Two readings of the text
of such a path are needed, its components and the parts that a directory tree is followed by. Both
give the segments back, also behind a directory (`components_join`, `exists_front`), and so does
leaving the extension out (`withoutExtension_fileParts`).

The path of a view is of this form (`viewPath_eq`).
-/

namespace ClassDocs

open TypeExpr (joinTexts)
open Disk (partsOf)

theorem TypeExpr.joinTexts_eq (sep : String) (parts : List String) :
    joinTexts sep parts = sep.intercalate parts := by
  fun_induction joinTexts sep parts with
  | case1 => rfl
  | case2 t => simp
  | case3 t u rest ih => rw [String.intercalate_cons_cons, ih]

theorem TypeExpr.joinTexts_singleton (sep text : String) : joinTexts sep [text] = text := rfl

theorem TypeExpr.joinTexts_snoc (sep : String) {init : List String} (h : init ≠ [])
    (last : String) :
    joinTexts sep (init ++ [last]) = joinTexts sep init ++ sep ++ last := by
  simp [joinTexts_eq, String.intercalate_append_of_ne_nil h]

theorem Disk.partsOf_eq (path : String) :
    partsOf path = (path.toList.splitOn '/').map .ofList := by
  rw [partsOf, Text.splitOnChar_eq]

theorem Disk.partsOf_append (directory path : String) :
    partsOf (directory ++ "/" ++ path) = partsOf directory ++ partsOf path := by
  have hchars : (directory ++ "/" ++ path).toList = directory.toList ++ '/' :: path.toList := by
    simp
  simp only [partsOf_eq, hchars, List.splitOn_append_cons_self, List.map_append]

namespace Path

/-! ## Paths from proper parts -/

/-- The name of a file or directory. -/
structure Proper (part : String) : Prop where
  ne_empty : part ≠ ""
  ne_dot : part ≠ "."
  ne_dots : part ≠ ".."
  no_slash : '/' ∉ part.toList

theorem Proper.isName {part : String} (h : Proper part) : isName part = true := by
  have hslash : part ≠ "/" := fun heq => h.no_slash (heq ▸ by decide)
  simp [Path.isName, h.ne_dot, h.ne_dots, hslash]

/-- A slash in front or at the end of a path leaves an empty part. -/
theorem mem_partsOf_of_slash {path : String} {front back : List Char}
    (h : path.toList = front ++ '/' :: back) (hempty : front = [] ∨ back = []) :
    "" ∈ partsOf path := by
  rw [Disk.partsOf_eq, h, List.splitOn_append_cons_self]
  rcases hempty with rfl | rfl <;> simp

section Joined

variable {parts : List String} (hp : ∀ p ∈ parts, Proper p) (hne : parts ≠ [])
include hp hne

theorem partsOf_joinTexts : partsOf (joinTexts "/" parts) = parts := by
  have hslash : ∀ cs ∈ parts.map String.toList, '/' ∉ cs := by
    intro cs hcs
    obtain ⟨p, hmem, rfl⟩ := List.mem_map.mp hcs
    exact (hp p hmem).no_slash
  have hsplit := List.splitOn_intercalate '/' hslash (by simpa using hne)
  rw [Disk.partsOf_eq, TypeExpr.joinTexts_eq, String.toList_intercalate]
  rw [show "/".toList = ['/'] from rfl, hsplit]
  simp

theorem not_mem_partsOf_joinTexts : "" ∉ partsOf (joinTexts "/" parts) := by
  rw [partsOf_joinTexts hp hne]
  exact fun hmem => (hp "" hmem).ne_empty rfl

theorem isAbsolute_joinTexts : isAbsolute (joinTexts "/" parts) = false := by
  rw [isAbsolute, beq_eq_false_iff_ne]
  intro hhead
  obtain ⟨rest, hrest⟩ := List.head?_eq_some_iff.mp hhead
  have hslash : (joinTexts "/" parts).toList = [] ++ '/' :: rest := hrest
  exact not_mem_partsOf_joinTexts hp hne (mem_partsOf_of_slash hslash (Or.inl rfl))

theorem getLast?_joinTexts : (joinTexts "/" parts).toList.getLast? ≠ some '/' := by
  intro hlast
  obtain ⟨front, hfront⟩ := List.getLast?_eq_some_iff.mp hlast
  exact not_mem_partsOf_joinTexts hp hne (mem_partsOf_of_slash hfront (Or.inr rfl))

theorem joinTexts_ne_empty : joinTexts "/" parts ≠ "" := by
  intro hempty
  refine not_mem_partsOf_joinTexts hp hne ?_
  rw [hempty]
  decide

end Joined

/-- Proper parts are joined with slashes. -/
theorem foldl_join {parts : List String} (hp : ∀ p ∈ parts, Proper p) :
    parts.foldl join "" = joinTexts "/" parts := by
  -- the parts joined already are a path that is not empty and has no slash at its end
  have hfold : ∀ (parts done : List String), (∀ p ∈ done ++ parts, Proper p) → done ≠ [] →
      parts.foldl join (joinTexts "/" done) = joinTexts "/" (done ++ parts) := by
    intro parts
    induction parts with
    | nil => intro done _ _; simp
    | cons p parts ih =>
      intro done hp hne
      have hdone : ∀ q ∈ done, Proper q := fun q hq => hp q (List.mem_append_left _ hq)
      have hpart : Proper p := hp p (by simp)
      have hrelative : isAbsolute p = false := by
        have hone :=
          isAbsolute_joinTexts (List.forall_mem_singleton.mpr hpart) (List.cons_ne_nil p [])
        rwa [TypeExpr.joinTexts_singleton] at hone
      have hjoin : join (joinTexts "/" done) p = joinTexts "/" (done ++ [p]) := by
        rw [TypeExpr.joinTexts_snoc "/" hne]
        simp [join, hrelative, joinTexts_ne_empty hdone hne, getLast?_joinTexts hdone hne]
      rw [List.foldl_cons, hjoin, ih (done ++ [p]) (by simpa using hp) (by simp)]
      simp
  cases parts with
  | nil => rfl
  | cons p parts =>
    have hfirst : join "" p = joinTexts "/" [p] := by simp [join, joinTexts]
    rw [List.foldl_cons, hfirst]
    exact hfold parts [p] hp (by simp)

/-! ## Paths below a directory -/

/-- The parts of the paths below a directory start alike, with those of the directory. -/
theorem exists_front (directory : String) : ∃ front,
    (partsOf directory = front ∨ partsOf directory = front ++ [""]) ∧
    (directory ≠ "" → front ≠ []) ∧
    ∀ path, isAbsolute path = false → partsOf (join directory path) = front ++ partsOf path := by
  by_cases hempty : directory = ""
  · subst hempty
    refine ⟨[], Or.inr (by decide), by simp, fun path _ => by simp [join]⟩
  have hne : directory.isEmpty = false := by simpa using hempty
  by_cases hslash : directory.toList.getLast? = some '/'
  · obtain ⟨front, hfront⟩ := List.getLast?_eq_some_iff.mp hslash
    have hdirectory : directory = .ofList front ++ "/" ++ "" := by
      rw [← String.toList_inj]
      simp [hfront]
    refine ⟨partsOf (.ofList front), Or.inr ?_,
      fun _ => by simp [Disk.partsOf_eq], fun path hpath => ?_⟩
    · rw [hdirectory, Disk.partsOf_append]
      rfl
    · have hjoin : join directory path = .ofList front ++ "/" ++ path := by
        simp only [join, hpath, hne, hslash]
        rw [hdirectory]
        simp
      rw [hjoin, Disk.partsOf_append]
  · refine ⟨partsOf directory, Or.inl rfl,
      fun _ => by simp [Disk.partsOf_eq], fun path hpath => ?_⟩
    have hjoin : join directory path = directory ++ "/" ++ path := by
      simp [join, hpath, hne, hslash]
    rw [hjoin, Disk.partsOf_append]

theorem isAbsolute_join {directory path : String} (hpath : isAbsolute path = false) :
    isAbsolute (join directory path) = isAbsolute directory := by
  by_cases hempty : directory = ""
  · subst hempty
    simp [join, hpath]
    rfl
  have hne : directory.isEmpty = false := by simpa using hempty
  obtain ⟨c, cs, hcs⟩ := List.exists_cons_of_ne_nil (mt String.toList_eq_nil_iff.mp hempty)
  unfold join
  simp only [hpath, hne, Bool.or_self, Bool.false_eq_true, if_false]
  split <;> simp [isAbsolute, hcs]

/-- A path is relative if its first part is a name. -/
theorem isAbsolute_eq_false {path : String} (h : (partsOf path).head? ≠ some "") :
    isAbsolute path = false := by
  rw [isAbsolute, beq_eq_false_iff_ne]
  intro habsolute
  obtain ⟨rest, hrest⟩ := List.head?_eq_some_iff.mp habsolute
  refine h ?_
  rw [Disk.partsOf_eq, hrest, List.splitOn_cons_eq_if_modifyHead]
  rfl

/-- The components of a path from its parts: the root or a dot in front, then the names. -/
theorem components_eq (path : String) :
    components path =
      (if isAbsolute path then ["/"] else if (partsOf path).head? = some "." then ["."] else []) ++
      (partsOf path).filter components.named := by
  unfold components
  split
  · rename_i rest hparts
    have heq : partsOf path = "" :: rest := hparts
    simp [heq, components.named]
  · rename_i rest hparts
    have heq : partsOf path = "." :: rest := hparts
    have hrelative : isAbsolute path = false := isAbsolute_eq_false (by simp [heq])
    simp [heq, hrelative, components.named]
  · rename_i hempty hdot
    change ∀ rest, partsOf path = "" :: rest → False at hempty
    change ∀ rest, partsOf path = "." :: rest → False at hdot
    change (partsOf path).filter components.named = _
    have hfirst : (partsOf path).head? ≠ some "" := fun h =>
      (List.head?_eq_some_iff.mp h).elim hempty
    have hsecond : (partsOf path).head? ≠ some "." := fun h =>
      (List.head?_eq_some_iff.mp h).elim hdot
    simp [isAbsolute_eq_false hfirst, hsecond]

theorem filter_named {parts : List String} (hp : ∀ p ∈ parts, Proper p) :
    parts.filter components.named = parts := by
  rw [List.filter_eq_self]
  intro p hmem
  simp [components.named, (hp p hmem).ne_empty, (hp p hmem).ne_dot]

theorem components_joinTexts {parts : List String} (hp : ∀ p ∈ parts, Proper p)
    (hne : parts ≠ []) :
    components (joinTexts "/" parts) = parts := by
  have hhead : parts.head? ≠ some "." := fun h => (hp "." (List.mem_of_head? h)).ne_dot rfl
  rw [components_eq, isAbsolute_joinTexts hp hne, partsOf_joinTexts hp hne, filter_named hp]
  simp [hhead]

/-- **A path below a directory has the components of the directory and then its own parts.** -/
theorem components_join (directory : String) {parts : List String} (hp : ∀ p ∈ parts, Proper p)
    (hne : parts ≠ []) :
    components (join directory (joinTexts "/" parts)) = components directory ++ parts := by
  by_cases hempty : directory = ""
  · subst hempty
    have hjoin : join "" (joinTexts "/" parts) = joinTexts "/" parts := by simp [join]
    rw [hjoin, components_joinTexts hp hne]
    rfl
  have hrelative := isAbsolute_joinTexts hp hne
  obtain ⟨front, hfront, hfilled, hjoin⟩ := exists_front directory
  have hnames : (partsOf directory).filter components.named = front.filter components.named := by
    rcases hfront with h | h <;> simp [h, components.named]
  have hhead : (front ++ parts).head? = (partsOf directory).head? := by
    obtain ⟨first, rest, rfl⟩ := List.exists_cons_of_ne_nil (hfilled hempty)
    rcases hfront with h | h <;> simp [h]
  rw [components_eq, components_eq directory, isAbsolute_join hrelative, hjoin _ hrelative,
    partsOf_joinTexts hp hne, hnames, hhead, List.filter_append, filter_named hp,
      List.append_assoc]

theorem dropLeading?_append (front back : List String) :
    dropLeading? front (front ++ back) = some back := by
  induction front with
  | nil => rfl
  | cons p ps ih => simp [dropLeading?, ih]

/-! ## Files with an extension -/

/-- The parts of the path of a file: the last segment has an extension. -/
def fileParts (extension : String) (segments : List String) : List String :=
  mapName (· ++ "." ++ extension) segments

/-- An extension holds neither dots nor slashes. -/
structure IsExtension (extension : String) : Prop where
  no_dot : '.' ∉ extension.toList
  no_slash : '/' ∉ extension.toList

theorem no_dot_of_segment {s : String} (h : Source.Segment s) : '.' ∉ s.toList :=
  fun hmem => absurd (h.nameChar _ hmem) (by decide)

theorem proper_of_segment {s : String} (h : Source.Segment s) : Proper s := by
  have hchars := h.nameChar
  have hdot := no_dot_of_segment h
  obtain ⟨c, rest, hs, -⟩ := h
  refine ⟨?_, ?_, ?_, fun hmem => absurd (hchars _ hmem) (by decide)⟩
  · rintro rfl
    simp at hs
  · rintro rfl
    exact hdot (by decide)
  · rintro rfl
    exact hdot (by decide)

theorem proper_of_extension {s extension : String} (h : Source.Segment s)
    (he : IsExtension extension) :
    Proper (s ++ "." ++ extension) := by
  have hno := (proper_of_segment h).no_slash
  obtain ⟨c, rest, hs, hc, -⟩ := h
  have hdot : c ≠ '.' := by
    rintro rfl
    exact absurd hc (by decide)
  have hchars : (s ++ "." ++ extension).toList = c :: (rest ++ '.' :: extension.toList) := by
    simp [hs]
  refine ⟨?_, ?_, ?_, ?_⟩
  · intro heq
    simp [heq] at hchars
  · intro heq
    rw [heq] at hchars
    exact hdot (List.cons.inj hchars).1.symm
  · intro heq
    rw [heq] at hchars
    exact hdot (List.cons.inj hchars).1.symm
  · simp [hno, he.no_slash]

theorem mapName_snoc {f : String → String} {init : List String} {last : String} (h : Proper last) :
    mapName f (init ++ [last]) = init ++ [f last] := by
  simp [mapName, h.isName]

theorem splitExtension_append {stem extension : String} (hs : stem ≠ "")
    (he : '.' ∉ extension.toList) :
    splitExtension (stem ++ "." ++ extension) = (stem, some extension) := by
  have hbackwards : (stem ++ "." ++ extension).toList.reverse =
      extension.toList.reverse ++ '.' :: stem.toList.reverse := by simp
  have hpass : ∀ c ∈ extension.toList.reverse, (c != '.') = true := by
    intro c hc
    rw [List.mem_reverse] at hc
    exact bne_iff_ne.mpr fun heq => he (heq ▸ hc)
  have hstem : stem.toList.reverse.isEmpty = false := by simpa using hs
  unfold splitExtension
  rw [hbackwards]
  dsimp only
  rw [List.dropWhile_append_of_pos hpass, List.takeWhile_append_of_pos hpass]
  simp [hs]

theorem splitExtension_of_no_dot {name : String} (h : '.' ∉ name.toList) :
    splitExtension name = (name, none) := by
  have hpass : ∀ c ∈ name.toList.reverse, (c != '.') = true := by
    intro c hc
    rw [List.mem_reverse] at hc
    exact bne_iff_ne.mpr fun heq => h (heq ▸ hc)
  have hdrop : name.toList.reverse.dropWhile (· != '.') = [] := by
    rw [← List.append_nil name.toList.reverse, List.dropWhile_append_of_pos hpass]
    rfl
  unfold splitExtension
  dsimp only
  rw [hdrop]

section Files

variable {extension : String} (he : IsExtension extension) {segments : List String}
  (hs : ∀ s ∈ segments, Source.Segment s) (hne : segments ≠ [])
include hs hne

theorem exists_snoc : ∃ init last, segments = init ++ [last] ∧ (∀ s ∈ init, Proper s) ∧
    Source.Segment last := by
  refine ⟨_, _, (List.dropLast_concat_getLast hne).symm, ?_, hs _ (List.getLast_mem hne)⟩
  exact fun s hmem => proper_of_segment (hs s (List.dropLast_subset _ hmem))

theorem joinTexts_fileParts :
    joinTexts "/" (fileParts extension segments) = joinTexts "/" segments ++ "." ++ extension := by
  obtain ⟨init, last, rfl, -, hlast⟩ := exists_snoc hs hne
  rw [fileParts, mapName_snoc (proper_of_segment hlast)]
  by_cases hinit : init = []
  · simp [hinit, joinTexts]
  · simp [TypeExpr.joinTexts_snoc "/" hinit, String.append_assoc]

theorem fileParts_ne_nil : fileParts extension segments ≠ [] := by
  obtain ⟨init, last, rfl, -, hlast⟩ := exists_snoc hs hne
  simp [fileParts, mapName_snoc (proper_of_segment hlast)]

/-- Setting the extension of a path from segments puts it behind the last one. -/
theorem withExtension_joinTexts : withExtension (joinTexts "/" segments) extension =
    joinTexts "/" segments ++ "." ++ extension := by
  have hparts := components_joinTexts (fun s hmem => proper_of_segment (hs s hmem)) hne
  obtain ⟨init, last, rfl, -, hlast⟩ := exists_snoc hs hne
  have hname := (proper_of_segment hlast).isName
  have hsplit := splitExtension_of_no_dot (no_dot_of_segment hlast)
  obtain ⟨front, hfront⟩ : ∃ front, joinTexts "/" (init ++ [last]) = front ++ last := by
    by_cases hinit : init = []
    · exact ⟨"", by simp [hinit, joinTexts]⟩
    · exact ⟨_, TypeExpr.joinTexts_snoc "/" hinit last⟩
  -- the path ends in a character of a name, so nothing is cut off behind its last component
  have htrim : trimEnding (front ++ last).toList.reverse = (front ++ last).toList.reverse := by
    have hlastne : last.toList.reverse ≠ [] := by simpa using (proper_of_segment hlast).ne_empty
    obtain ⟨d, ds, hd⟩ := List.exists_cons_of_ne_nil hlastne
    have hchar : Source.isNameChar d = true := by
      refine hlast.nameChar d (List.mem_reverse.mp ?_)
      rw [hd]
      exact List.mem_cons_self
    have hslash : d ≠ '/' := by
      rintro rfl
      exact absurd hchar (by decide)
    have hdot : d ≠ '.' := by
      rintro rfl
      exact absurd hchar (by decide)
    rw [String.toList_append, List.reverse_append, hd, List.cons_append]
    unfold trimEnding
    split <;> simp_all
  rw [withExtension, hparts, hfront, List.getLast?_concat]
  dsimp only
  rw [if_pos hname, htrim, List.reverse_reverse, hsplit]
  simp

include he

theorem proper_fileParts : ∀ p ∈ fileParts extension segments, Proper p := by
  obtain ⟨init, last, rfl, hinit, hlast⟩ := exists_snoc hs hne
  rw [fileParts, mapName_snoc (proper_of_segment hlast)]
  intro p hp
  rcases List.mem_append.mp hp with hp | hp
  · exact hinit p hp
  · rw [List.mem_singleton.mp hp]
    exact proper_of_extension hlast he

/-- The segments of a file are left when the extension is taken off. -/
theorem withoutExtension_fileParts :
    withoutExtension (fileParts extension segments) = segments := by
  obtain ⟨init, last, rfl, -, hlast⟩ := exists_snoc hs hne
  rw [fileParts, mapName_snoc (proper_of_segment hlast), withoutExtension,
    mapName_snoc (proper_of_extension hlast he),
      splitExtension_append (proper_of_segment hlast).ne_empty he.no_dot]

end Files

end Path

/-! ## The file of a view -/

namespace Report

open ClassDocs.Path Source

/-- The name that the page of a class has: what is below the root namespace, or all of it. -/
def pageName (rootSpace className : String) : String :=
  if (Name.bare rootSpace).isEmpty then className else
    (Name.below? (Name.bare rootSpace) className).getD className

theorem qualified_pageName (rootSpace : String) {name : String} (h : Qualified name) :
    Qualified (pageName rootSpace name) := by
  unfold pageName
  split
  · exact h
  cases hbelow : Name.below? (Name.bare rootSpace) name with
  | none => exact h
  | some rest =>
    obtain ⟨front, hname, -⟩ := Name.below?_eq_some_iff.mp hbelow
    simpa using h.right hname

theorem isExtension_json : IsExtension "json" := ⟨by decide, by decide⟩

/-- The parts of the file of a view: the segments of the page's name, the last one with an
extension. -/
def viewParts (rootSpace className : String) : List String :=
  fileParts "json" (Name.segments (pageName rootSpace className))

variable {name : String} (h : Qualified name) (rootSpace : String)
include h

theorem proper_viewParts : ∀ p ∈ viewParts rootSpace name, Proper p :=
  proper_fileParts isExtension_json (qualified_pageName rootSpace h) (Name.segments_ne_nil _)

theorem viewParts_ne_nil : viewParts rootSpace name ≠ [] :=
  fileParts_ne_nil (qualified_pageName rootSpace h) (Name.segments_ne_nil _)

theorem withoutExtension_viewParts :
    withoutExtension (viewParts rootSpace name) = Name.segments (pageName rootSpace name) :=
  withoutExtension_fileParts isExtension_json (qualified_pageName rootSpace h)
    (Name.segments_ne_nil _)

theorem viewPath_eq :
    viewPath name rootSpace =
      joinTexts "/" (Name.segments (pageName rootSpace name)) ++ ".json" := by
  have hsegments := qualified_pageName rootSpace h
  have hproper : ∀ s ∈ Name.segments (pageName rootSpace name), Proper s :=
    fun s hs => proper_of_segment (hsegments s hs)
  have hdef : viewPath name rootSpace =
      withExtension ((Name.segments (pageName rootSpace name)).foldl join "") "json" := rfl
  rw [hdef, foldl_join hproper, withExtension_joinTexts hsegments (Name.segments_ne_nil _),
    String.append_assoc]
  rfl

/-- **The file of a view is the path from its parts.** -/
theorem viewPath_eq_joinTexts :
    viewPath name rootSpace = joinTexts "/" (viewParts rootSpace name) := by
  have hparts : joinTexts "/" (viewParts rootSpace name) = _ :=
    joinTexts_fileParts (qualified_pageName rootSpace h) (Name.segments_ne_nil _)
  rw [viewPath_eq h, hparts, String.append_assoc]
  rfl

end Report

end ClassDocs

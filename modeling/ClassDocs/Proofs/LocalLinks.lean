import ClassDocs.Proofs.PagePaths
import ClassDocs.Proofs.Provenance

/-!
# Local links

Three parts of the program speak of the page of a class of the root namespace. The link to it is
made from the path of the file that declares the class. The file it is written to is made from the
name of the class. And whether there is a page is a question to the list of documented classes. In
a project whose files lie where the names of their classes say (`Placed`) the three agree: a local
link leads to a page that is written (`local_link_iff_page`).

The file of a class leads back to the segments of its name (`pageUrl?_of_placed`), and the segments
are also what the path of its view is made of. Letter case does not come in between, since neither
the root namespace nor an exclusion tells names apart by it (`isLocal_congr`, `isExcluded_congr`).
-/

namespace ClassDocs

open TypeExpr (joinTexts)

namespace LinkContext

theorem isLocal_congr (ctx : LinkContext) {name other : String}
    (h : Text.lower name = Text.lower other) :
    ctx.isLocal name = ctx.isLocal other := by
  rw [isLocal, isLocal, Name.inSpace_congr h]

theorem isExcluded_congr (ctx : LinkContext) {name other : String}
    (h : Text.lower name = Text.lower other) :
    ctx.isExcluded name = ctx.isExcluded other := by
  simp only [isExcluded, Name.inSpace_congr h, Text.sameName, h]

/-- A class lives in the root namespace if something of its name is below it. -/
theorem isLocal_iff {ctx : LinkContext} (hroot : Name.bare ctx.rootSpace = ctx.rootSpace)
    {name : String} :
    ctx.isLocal name = true ↔ ctx.rootSpace.isEmpty = false ∧
      ∃ rest, Name.below? ctx.rootSpace name = some rest := by
  rw [isLocal, Name.inSpace, hroot]
  cases hempty : ctx.rootSpace.isEmpty with
  | true => simp
  | false => simp [Option.isSome_iff_exists]

/-- The path of the source of the class with a name below the root namespace. -/
def sourcePath (ctx : LinkContext) (rest : String) : String :=
  Path.join ctx.rootPath (joinTexts "/" (Name.segments rest) ++ ".php")

/-- Every class of the root namespace is declared in the file that its name says. -/
def Placed (ctx : LinkContext) (ix : Index) : Prop :=
  ∀ c ∈ ix.classes.values, ∀ rest, Name.below? ctx.rootSpace c.name = some rest →
    (∀ s ∈ Name.segments rest, '.' ∉ s.toList ∧ '/' ∉ s.toList) →
    Path.same c.file (ctx.sourcePath rest) = true

theorem isExtension_php : Path.IsExtension "php" := ⟨by decide, by decide⟩

theorem components_sourcePath (ctx : LinkContext) {rest : String} (h : Source.Qualified rest) :
    Path.components (ctx.sourcePath rest) =
      Path.components ctx.rootPath ++ Path.fileParts "php" (Name.segments rest) := by
  have hne := Name.segments_ne_nil rest
  have hpath : joinTexts "/" (Name.segments rest) ++ ".php" =
      joinTexts "/" (Path.fileParts "php" (Name.segments rest)) := by
    rw [Path.joinTexts_fileParts h hne, String.append_assoc]
    rfl
  rw [sourcePath, hpath]
  exact Path.components_join _ (Path.proper_fileParts isExtension_php h hne)
    (Path.fileParts_ne_nil h hne)

/-- The address of a page from a file where the name of its class says is made of the segments of
the name. -/
theorem pageUrl?_of_placed (ctx : LinkContext) {file rest : String} (hq : Source.Qualified rest)
    (hfile : Path.same file (ctx.sourcePath rest) = true) :
    ctx.pageUrl? file =
      some (Text.stripTextEnd (· == '/') ctx.baseUrl ++ "/" ++
        joinTexts "/" (Name.segments rest)) := by
  have hcomponents : Path.components file =
      Path.components ctx.rootPath ++ Path.fileParts "php" (Name.segments rest) := by
    rw [← components_sourcePath ctx hq]
    exact beq_iff_eq.mp hfile
  have hplace : Path.below? ctx.rootPath file =
      some (Path.fileParts "php" (Name.segments rest)) := by
    rw [Path.below?, hcomponents, Path.dropLeading?_append]
  rw [pageUrl?, hplace, Option.map_some,
    Path.withoutExtension_fileParts isExtension_php hq (Name.segments_ne_nil rest)]

end LinkContext

namespace Index

open LinkContext

variable {ix : Index}

/-- A known class is found, and what is found is its declaration but for members. -/
theorem describe?_headed (hk : Kept ix) {name : String} {c : ClassDecl}
    (hc : ix.classes.find? (key name) = some c) :
    ∃ m, (describe? name ix).1 = some m ∧ Headed c m := by
  have hknown : (describe? name ix).1.isSome = true := by
    rw [(describe?_finds hk.unmapped name ix hk.traced.table).1]
    exact contains_of_find? hc
  obtain ⟨m, hm⟩ := Option.isSome_iff_exists.mp hknown
  obtain ⟨c', hc', hcomposed⟩ := (describe?_traced hk.unmapped hk.filed name ix hk.traced).1 m hm
  obtain rfl := Option.some.inj (hc.symm.trans hc')
  exact ⟨m, hm, hcomposed.headed⟩

theorem describe?_unknown (hk : Kept ix) {name : String}
    (hfind : ix.classes.find? (key name) = none) :
    (describe? name ix).1 = none := by
  rw [← Option.not_isSome_iff_eq_none, (describe?_finds hk.unmapped name ix hk.traced.table).1]
  simp [Table.contains, hfind]

/-- A class is found by a name only if its own name is the same up to letter case. -/
theorem lower_name_of_find? (hf : Filed ix.classes) {name : String}
    (hname : name.toList.head? ≠ some '\\') {c : ClassDecl}
    (hc : ix.classes.find? (key name) = some c) : Text.lower c.name = Text.lower name := by
  have hkey : key c.name = key name := hf.key_name _ c hc
  have hplain : Name.unrooted name = name := by
    unfold Name.unrooted
    split
    · rename_i heq
      simp [heq] at hname
    · rfl
  have hown : Name.unrooted c.name = c.name := Source.unrooted_of_plain (hf.qualified _ c hc).head
  rwa [key, key, hplain, hown] at hkey

/-- The link to a local class, from what is known of it. -/
theorem linkOf_local {ctx : LinkContext} {name : String} (hname : name.toList.head? ≠ some '\\')
    (hlocal : ctx.isLocal name = true) :
    (linkOf ctx name ix).1 =
      if ctx.isExcluded name then none else (describe? name ix).1.bind fun c =>
        ctx.pageUrl? c.file := by
  have hunrooted : Name.withoutRoot name = name := by
    unfold Name.withoutRoot
    cases hchars : name.toList with
    | nil => exact (String.toList_eq_nil_iff.mp hchars).symm
    | cons d ds =>
      have hd : (d == '\\') = false := by simpa [hchars] using hname
      rw [List.dropWhile_cons_of_neg (by simp [hd]), ← hchars, String.ofList_toList]
  unfold linkOf
  rw [hunrooted]
  simp only [hlocal, if_true]
  split <;> rfl

theorem mem_classNames {k : String} {c : ClassDecl} (h : ix.classes.find? k = some c) :
    c.name ∈ ix.classNames := by
  rw [classNames, List.mem_mergeSort]
  exact List.mem_map_of_mem (mem_values_of_find? h)

theorem linkOf_unknown (hk : Kept ix) {ctx : LinkContext} {name : String}
    (hname : name.toList.head? ≠ some '\\') (hlocal : ctx.isLocal name = true)
    (hfind : ix.classes.find? (key name) = none) :
    (linkOf ctx name ix).1 = none := by
  rw [linkOf_local hname hlocal, describe?_unknown hk hfind]
  simp

/-- A known class that is not excluded is documented, and the link to it leads to its page. -/
theorem linkOf_known (hk : Kept ix) {ctx : LinkContext}
    (hroot : Name.bare ctx.rootSpace = ctx.rootSpace) (hplaced : Placed ctx ix) {name : String}
    (hname : name.toList.head? ≠ some '\\') (hlocal : ctx.isLocal name = true)
    (hexcluded : ctx.isExcluded name = false) {c : ClassDecl}
    (hfind : ix.classes.find? (key name) = some c) :
    c.name ∈ documentedClasses ix ctx ∧
      ∃ page, Report.viewPath c.name ctx.rootSpace = page ++ ".json" ∧
      (linkOf ctx name ix).1 = some (Text.stripTextEnd (· == '/') ctx.baseUrl ++ "/" ++ page) := by
  have hsame := lower_name_of_find? hk.filed hname hfind
  have hq := hk.filed.qualified _ c hfind
  have hlocalc : ctx.isLocal c.name = true := (isLocal_congr ctx hsame).trans hlocal
  obtain ⟨hfilled, rest, hrest⟩ := (isLocal_iff hroot).mp hlocalc
  have hdocumented : c.name ∈ documentedClasses ix ctx := by
    refine List.mem_filter.mpr ⟨mem_classNames hfind, ?_⟩
    rw [hlocalc, isExcluded_congr ctx hsame, hexcluded]
    rfl
  have hpage : Report.pageName ctx.rootSpace c.name = rest := by
    simp [Report.pageName, hroot, hfilled, hrest]
  have hqrest : Source.Qualified rest := hpage ▸ Report.qualified_pageName ctx.rootSpace hq
  -- names in an index never have dots or slashes, so every class of the root namespace lies where
  -- it should
  have hplain : ∀ s ∈ Name.segments rest, '.' ∉ s.toList ∧ '/' ∉ s.toList := fun s hs =>
    ⟨Path.no_dot_of_segment (hqrest s hs), (Path.proper_of_segment (hqrest s hs)).no_slash⟩
  have hurl :=
    pageUrl?_of_placed ctx hqrest (hplaced c (mem_values_of_find? hfind) rest hrest hplain)
  refine ⟨hdocumented, joinTexts "/" (Name.segments rest), ?_, ?_⟩
  · rw [Report.viewPath_eq hq, hpage]
  · obtain ⟨m, hm, hheaded⟩ := describe?_headed hk hfind
    have hfile : m.file = c.file := by rw [hheaded]
    rw [linkOf_local hname hlocal, hexcluded, hm]
    simp only [Bool.false_eq_true, if_false, Option.bind_some]
    rw [hfile, hurl]

variable {project : Option Project}

/--
Where files lie as the names of their classes say, the link to a local class is there if and only
if the class is known and not excluded. Then the class is a documented one, and the link is the
base address, without slashes at its end, and the path of the class's view without the extension.
-/
theorem local_link_iff_page (hu : Unmapped { project }) (h : Reached project ix)
    {ctx : LinkContext} (hroot : Name.bare ctx.rootSpace = ctx.rootSpace) (hplaced : Placed ctx ix)
    {name : String} (hname : name.toList.head? ≠ some '\\') (hlocal : ctx.isLocal name = true) :
    ((linkOf ctx name ix).1.isSome = true ↔ (own name ix).1.isSome = true ∧
      ctx.isExcluded name = false) ∧
    ∀ url, (linkOf ctx name ix).1 = some url → ∃ c page, (own name ix).1 = some c ∧
      c.name ∈ documentedClasses ix ctx ∧ Report.viewPath c.name ctx.rootSpace = page ++ ".json" ∧
      url = Text.stripTextEnd (· == '/') ctx.baseUrl ++ "/" ++ page := by
  have hk := kept_reached hu h
  rw [own_of_unmapped hk.unmapped]
  cases hexcluded : ctx.isExcluded name with
  | true => simp [linkOf_local hname hlocal, hexcluded]
  | false =>
    cases hfind : ix.classes.find? (key name) with
    | none => simp [linkOf_unknown hk hname hlocal hfind]
    | some c =>
      obtain ⟨hdocumented, page, hpath, hlink⟩ :=
        linkOf_known hk hroot hplaced hname hlocal hexcluded hfind
      refine ⟨by simp [hlink], ?_⟩
      intro url hurl
      exact ⟨c, page, rfl, hdocumented, hpath, Option.some.inj (hurl.symm.trans hlink)⟩

/-- A class in another letter case than the root namespace, asked for in a third one. -/
theorem local_link_iff_page_other_case :
    let ix := ({} : Index).add "/p//src/./Sub/Foo.php"
      "<?php namespace APP\\Sub; class Foo extends Bar {}"
    let ctx := { LinkContext.new "App" "/p/src/" "https://example.org/docs//" with
      exclude := ["App\\Other"] }
    let name := "app\\SUB\\foo"
    ctx.isLocal name = true ∧ Placed ctx ix ∧
      (linkOf ctx name ix).1 = some "https://example.org/docs/Sub/Foo" ∧
      ((linkOf ctx name ix).1.isSome = true ↔ (own name ix).1.isSome = true ∧
        ctx.isExcluded name = false) ∧
      ∀ url, (linkOf ctx name ix).1 = some url → ∃ c page, (own name ix).1 = some c ∧
        c.name ∈ documentedClasses ix ctx ∧
          Report.viewPath c.name ctx.rootSpace = page ++ ".json" ∧
        url = Text.stripTextEnd (· == '/') ctx.baseUrl ++ "/" ++ page := by
  intro ix ctx name
  have hu : Unmapped { project := none } := by intro p hp; simp at hp
  have hlocal : ctx.isLocal name = true := by decide +kernel
  have hdeclared : ix.classes.values.map (fun c => (c.name, c.file)) =
      [("APP\\Sub\\Foo", "/p//src/./Sub/Foo.php")] := by decide +kernel
  have hplaced : Placed ctx ix := by
    intro c hc rest hrest _
    have hmem := List.mem_map_of_mem (f := fun c => (c.name, c.file)) hc
    rw [hdeclared, List.mem_singleton, Prod.mk.injEq] at hmem
    have hbelow : Name.below? ctx.rootSpace "APP\\Sub\\Foo" = some "Sub\\Foo" := by decide +kernel
    rw [hmem.1, hbelow] at hrest
    obtain rfl := Option.some.inj hrest
    rw [hmem.2]
    decide +kernel
  exact ⟨hlocal, hplaced, by decide +kernel,
    local_link_iff_page hu (.add _ _ .new) (by decide +kernel) hplaced (by decide +kernel) hlocal⟩

end Index

end ClassDocs

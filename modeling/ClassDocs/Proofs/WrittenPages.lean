import ClassDocs.Proofs.BatchComplete
import ClassDocs.Proofs.DiskWrites
import ClassDocs.Proofs.Distinct

/-!
# The files of a report

The view of each documented class has a file of its own: two classes of the root namespace with one
file would have the same name up to letter case, and then they are one class. But the views share a
directory with the index page, whose name is fixed, so a class directly in the root namespace that
is called `index` loses its file to the index page. These are all the cases in which a file is
written twice, and every other view can be read afterwards (`written_nodup_iff`).
-/

namespace ClassDocs

namespace Index

variable {ix : Index}

theorem exists_of_mem_classNames (hf : Filed ix.classes) {name : String}
    (h : name ∈ ix.classNames) :
    ∃ c, c.name = name ∧ ix.classes.find? (key name) = some c := by
  rw [classNames, List.mem_mergeSort] at h
  obtain ⟨c, hc, rfl⟩ := List.mem_map.mp h
  exact ⟨c, rfl, hf.find?_of_mem hc⟩

theorem nodup_classNames (hf : Filed ix.classes) : ix.classNames.Nodup := by
  rw [classNames, (List.mergeSort_perm _ _).nodup_iff]
  refine List.Nodup.of_map key ?_
  have hkeys : (ix.classes.values.map (·.name)).map key = ix.classes.keys := by
    rw [Table.values, Table.keys, List.map_map, List.map_map]
    refine List.map_congr_left fun e he => ?_
    exact hf.key_name e.1 e.2 (Table.find?_of_mem hf.nodup he)
  rw [hkeys]
  exact hf.nodup

/-- No two classes of an index have one name up to letter case. -/
theorem eq_of_lower (hf : Filed ix.classes) {name other : String} (hname : name ∈ ix.classNames)
    (hother : other ∈ ix.classNames) (h : Text.lower name = Text.lower other) : name = other := by
  obtain ⟨c, rfl, hc⟩ := exists_of_mem_classNames hf hname
  obtain ⟨d, rfl, hd⟩ := exists_of_mem_classNames hf hother
  have hkey : key c.name = key d.name := by
    rw [key, key, Source.unrooted_of_plain (hf.qualified _ c hc).head,
      Source.unrooted_of_plain (hf.qualified _ d hd).head, h]
  rw [hkey] at hc
  rw [Option.some.inj (hc.symm.trans hd)]

theorem qualified_of_mem (hf : Filed ix.classes) {name : String} (h : name ∈ ix.classNames) :
    Source.Qualified name := by
  obtain ⟨c, rfl, hc⟩ := exists_of_mem_classNames hf h
  exact hf.qualified _ c hc

end Index

namespace Report

open Index

/-- Classes of one namespace whose pages have one name have the same name up to letter case. -/
theorem lower_eq_of_pageName {rootSpace name other : String}
    (hname : Name.inSpace name rootSpace = true) (hother : Name.inSpace other rootSpace = true)
    (h : pageName rootSpace name = pageName rootSpace other) :
    Text.lower name = Text.lower other := by
  unfold pageName at h
  simp only [Name.inSpace] at hname hother
  cases hempty : (Name.bare rootSpace).isEmpty with
  | true =>
    simp only [hempty, if_true] at h
    rw [h]
  | false =>
    simp only [hempty, Bool.false_or, Bool.false_eq_true, if_false] at hname hother h
    obtain ⟨rest, hrest⟩ := Option.isSome_iff_exists.mp hname
    obtain ⟨rest', hrest'⟩ := Option.isSome_iff_exists.mp hother
    obtain rfl : rest = rest' := by simpa [hrest, hrest'] using h
    obtain ⟨front, hchars, hfront⟩ := Name.below?_eq_some_iff.mp hrest
    obtain ⟨front', hchars', hfront'⟩ := Name.below?_eq_some_iff.mp hrest'
    rw [Text.lower, Text.lower, hchars, hchars', List.map_append, List.map_append, hfront, hfront']

variable {ix : Index} {ctx : LinkContext}

theorem mem_documented {name : String} (h : name ∈ documentedClasses ix ctx) :
    name ∈ ix.classNames ∧ Name.inSpace name ctx.rootSpace = true := by
  obtain ⟨hmem, hlocal⟩ := List.mem_filter.mp h
  rw [Bool.and_eq_true, LinkContext.isLocal, Bool.and_eq_true] at hlocal
  exact ⟨hmem, hlocal.1.2⟩

/-- Two documented classes with the same file are the same. -/
theorem eq_of_viewParts (hf : Filed ix.classes) {name other : String}
    (hname : name ∈ documentedClasses ix ctx) (hother : other ∈ documentedClasses ix ctx)
    (h : viewParts ctx.rootSpace name = viewParts ctx.rootSpace other) : name = other := by
  obtain ⟨hmem, hspace⟩ := mem_documented hname
  obtain ⟨hmem', hspace'⟩ := mem_documented hother
  have hq := qualified_of_mem hf hmem
  have hq' := qualified_of_mem hf hmem'
  refine eq_of_lower hf hmem hmem' (lower_eq_of_pageName hspace hspace' (Name.segments_inj ?_))
  rw [← withoutExtension_viewParts hq, h, withoutExtension_viewParts hq']

/-- The index page has the file of the view of a class whose page is called `index`. -/
theorem viewParts_eq_index_iff {name : String} (h : Source.Qualified name) (rootSpace : String) :
    viewParts rootSpace name = ["index.json"] ↔ pageName rootSpace name = "index" := by
  constructor
  · intro hparts
    have hsegments := withoutExtension_viewParts h rootSpace
    rw [hparts] at hsegments
    exact Name.segments_inj (hsegments.symm.trans (by decide))
  · intro hpage
    rw [viewParts, hpage]
    decide

/-! ## Pages and their places -/

theorem proper_index : ∀ p ∈ ["index.json"], Path.Proper p := by
  intro p hp
  rw [List.mem_singleton.mp hp]
  exact ⟨by decide, by decide, by decide, by decide⟩

theorem components_viewPath (directory : String) {name : String} (h : Source.Qualified name)
    (rootSpace : String) :
    Path.components (Path.join directory (viewPath name rootSpace)) =
      Path.components directory ++ viewParts rootSpace name := by
  rw [viewPath_eq_joinTexts h]
  exact Path.components_join directory (proper_viewParts h rootSpace)
    (viewParts_ne_nil h rootSpace)

theorem components_index (directory : String) :
    Path.components (Path.join directory "index.json") =
      Path.components directory ++ ["index.json"] := by
  rw [← Path.components_join directory proper_index (List.cons_ne_nil _ _),
    TypeExpr.joinTexts_singleton]

section Names

variable (hf : Filed ix.classes) {names : List String} (hsub : names ⊆ documentedClasses ix ctx)
  (hnodup : names.Nodup) (directory : String)
include hf hsub

theorem map_components :
    (names.map fun name => Path.join directory (viewPath name ctx.rootSpace)).map Path.components =
    (names.map (viewParts ctx.rootSpace)).map (Path.components directory ++ ·) := by
  rw [List.map_map, List.map_map]
  refine List.map_congr_left fun name hname => ?_
  have hq := qualified_of_mem hf (mem_documented (hsub hname)).1
  rw [Function.comp_apply, Function.comp_apply, components_viewPath directory hq]

include hnodup

/-- The views of different classes have different paths. -/
theorem nodup_components :
    ((names.map fun name => Path.join directory (viewPath name ctx.rootSpace)).map
      Path.components).Nodup := by
  rw [map_components hf hsub]
  refine List.Nodup.map (List.append_right_injective _) ?_
  exact hnodup.map_on fun _ hname _ hother h => eq_of_viewParts hf (hsub hname) (hsub hother) h

/-- The path of the index page is another one unless a class is called `index`. -/
theorem nodup_components_index_iff :
    (((names.map fun name => Path.join directory (viewPath name ctx.rootSpace)) ++
      [Path.join directory "index.json"]).map Path.components).Nodup ↔
    ∀ name ∈ names, pageName ctx.rootSpace name ≠ "index" := by
  have hindex : ∀ name ∈ names, pageName ctx.rootSpace name = "index" ↔
      Path.components directory ++ viewParts ctx.rootSpace name =
          Path.components directory ++ ["index.json"] := by
    intro name hname
    rw [← viewParts_eq_index_iff (qualified_of_mem hf (mem_documented (hsub hname)).1),
      List.append_cancel_left_eq]
  rw [List.map_append, List.nodup_append, map_components hf hsub, List.map_singleton,
    components_index]
  constructor
  · rintro ⟨-, -, hdisjoint⟩ name hname hpage
    refine hdisjoint _ (List.mem_map_of_mem (List.mem_map_of_mem hname)) _
      (List.mem_singleton_self _) ?_
    exact (hindex name hname).mp hpage
  · intro hpages
    refine ⟨?_, List.nodup_singleton _, ?_⟩
    · rw [← map_components hf hsub]
      exact nodup_components hf hsub hnodup directory
    · intro a ha b hb heq
      obtain ⟨parts, hparts, rfl⟩ := List.mem_map.mp ha
      obtain ⟨name, hname, rfl⟩ := List.mem_map.mp hparts
      rw [List.mem_singleton.mp hb] at heq
      exact hpages name hname ((hindex name hname).mpr heq)

end Names

/-- A page with other parts than a view has another place. -/
theorem placeOf_ne (disk : Disk) (directory : String) {name : String} {parts : List String}
    (h : Source.Qualified name) (rootSpace : String) (hp : ∀ p ∈ parts, Path.Proper p)
    (hne : parts ≠ []) (hdiffer : viewParts rootSpace name ≠ parts) :
    disk.placeOf (Path.join directory (TypeExpr.joinTexts "/" parts)) ≠
      disk.placeOf (Path.join directory (viewPath name rootSpace)) := by
  obtain ⟨base, hbase⟩ := disk.exists_base directory
  rw [viewPath_eq_joinTexts h, hbase _ hp hne,
    hbase _ (proper_viewParts h rootSpace) (viewParts_ne_nil h rootSpace)]
  exact fun heq => hdiffer (List.append_cancel_left heq).symm

/-- The index page is written last, and is read back. -/
theorem read_index {disk : Disk} (htree : disk.IsTree) {r : Report} {directory rootSpace : String}
    (h : (writePages disk (r.pages directory rootSpace)).failure? = none) :
    (writePages disk (r.pages directory rootSpace)).disk.read (Path.join directory "index.json") =
      .ok r.indexPage.render :=
  read_writePages htree h (by simp)

/-- A view is read back unless its class is called `index`. -/
theorem read_view (hf : Filed ix.classes) {disk : Disk} (htree : disk.IsTree) {r : Report}
    {directory : String} (hsub : r.views.map Prod.fst ⊆ documentedClasses ix ctx)
    (hnodup : (r.views.map Prod.fst).Nodup)
    (h : (writePages disk (r.pages directory ctx.rootSpace)).failure? = none)
    {v : String × ClassView} (hv : v ∈ r.views) (hindex : pageName ctx.rootSpace v.1 ≠ "index") :
    (writePages disk (r.pages directory ctx.rootSpace)).disk.read
      (Path.join directory (viewPath v.1 ctx.rootSpace)) = .ok v.2.toJson.render := by
  have hqualified : ∀ w ∈ r.views, Source.Qualified w.1 := fun w hw =>
    qualified_of_mem hf (mem_documented (hsub (List.mem_map_of_mem hw))).1
  obtain ⟨before, later, hviews⟩ := List.append_of_mem hv
  have hpages : r.pages directory ctx.rootSpace =
      before.map (fun w => (Path.join directory (viewPath w.1 ctx.rootSpace), w.2.toJson)) ++
        (Path.join directory (viewPath v.1 ctx.rootSpace), v.2.toJson) ::
          (later.map (fun w => (Path.join directory (viewPath w.1 ctx.rootSpace), w.2.toJson)) ++
            [(Path.join directory "index.json", r.indexPage)]) := by
    rw [pages, hviews]
    simp
  rw [hpages] at h ⊢
  refine read_writePages htree h fun other hother => ?_
  rcases List.mem_append.mp hother with hother | hother
  · obtain ⟨w, hw, rfl⟩ := List.mem_map.mp hother
    have hmem : w ∈ r.views := by
      rw [hviews]
      exact List.mem_append_right _ (List.mem_cons_of_mem _ hw)
    have hne : v.1 ≠ w.1 := by
      rw [hviews, List.map_append, List.map_cons, List.nodup_append] at hnodup
      intro heq
      exact (List.nodup_cons.mp hnodup.2.1).1 (heq ▸ List.mem_map_of_mem hw)
    have hq := hqualified w hmem
    have hdiffer : viewParts ctx.rootSpace v.1 ≠ viewParts ctx.rootSpace w.1 := fun heq =>
      hne
        (eq_of_viewParts hf (hsub (List.mem_map_of_mem hv)) (hsub (List.mem_map_of_mem hmem)) heq)
    dsimp only
    rw [viewPath_eq_joinTexts hq]
    exact placeOf_ne disk directory (hqualified v hv) _ (proper_viewParts hq _)
      (viewParts_ne_nil hq _) hdiffer
  · rw [List.mem_singleton.mp hother, ← TypeExpr.joinTexts_singleton "/" "index.json"]
    refine placeOf_ne disk directory (hqualified v hv) _ proper_index (List.cons_ne_nil _ _)
      fun heq => hindex ?_
    exact (viewParts_eq_index_iff (hqualified v hv) _).mp heq

theorem map_fst_pages (r : Report) (directory rootSpace : String) :
    (r.pages directory rootSpace).map Prod.fst =
      (r.views.map Prod.fst).map (fun name => Path.join directory (viewPath name rootSpace)) ++
      [Path.join directory "index.json"] := by
  simp [pages, Function.comp_def]

variable {project : Option Project}

/--
The files written for the documented classes of an index, with no failure: one for each class that
was built, and the index page. Every documented class was built or is reported as failed, and none
fails if there are no mappings or the files of the index are as on the disk. The views have
different paths, and the path of the index page is none of theirs unless a class of the
root namespace is called `index`. Every other view can be read afterwards, and so can the index
page.
-/
theorem written_nodup_iff (h : Reached project ix) {disk : Disk} {directory : String}
    {written : List String} {report : Report}
    (hreport : (run ctx (documentedClasses ix ctx) ix).1 = report)
    (hwritten : (writePages disk (report.pages directory ctx.rootSpace)).result = .ok written) :
    let path := fun name => Path.join directory (viewPath name ctx.rootSpace)
    let after := (writePages disk (report.pages directory ctx.rootSpace)).disk
    written = (report.views.map Prod.fst).map path ++ [Path.join directory "index.json"] ∧
    (report.views.map Prod.fst ++ report.failures.map Prod.fst).Perm (documentedClasses ix ctx) ∧
    ((Unmapped ix ∨ ∃ p, ix.project = some p ∧ ∀ k, Current p k ix) → report.failures = []) ∧
    (written.dropLast.map Path.components).Nodup ∧
    ((written.map Path.components).Nodup ↔ ∀ v ∈ report.views,
      pageName ctx.rootSpace v.1 ≠ "index") ∧
    (disk.IsTree → after.read (Path.join directory "index.json") = .ok report.indexPage.render ∧
      ∀ v ∈ report.views, pageName ctx.rootSpace v.1 ≠ "index" →
          after.read (path v.1) = .ok v.2.toJson.render) := by
  intro path after
  have hf := (clean_reached h).filed
  have hperm : (report.views.map Prod.fst ++ report.failures.map Prod.fst).Perm
      (documentedClasses ix ctx) := by
    rw [← hreport]
    exact report_perm ((nodup_classNames hf).sublist List.filter_sublist)
  have hsub : report.views.map Prod.fst ⊆ documentedClasses ix ctx := fun name hname =>
    hperm.subset (List.mem_append_left _ hname)
  have hnodup : (report.views.map Prod.fst).Nodup := by
    rw [← hreport]
    exact nodup_inOrder _
  obtain ⟨hok, hpaths⟩ := written_of_result hwritten
  rw [map_fst_pages] at hpaths
  refine ⟨hpaths, hperm, fun hcurrent => ?_, ?_, ?_, fun htree => ?_⟩
  · rw [← hreport]
    refine failures_of_known hcurrent fun name hname => ?_
    obtain ⟨c, -, hc⟩ := exists_of_mem_classNames hf (mem_documented hname).1
    exact contains_of_find? hc
  · rw [hpaths, List.dropLast_concat]
    exact nodup_components hf hsub hnodup directory
  · rw [hpaths, nodup_components_index_iff hf hsub hnodup directory]
    exact List.forall_mem_map
  · exact ⟨read_index htree hok, fun v hv hindex => read_view hf htree hsub hnodup hok hv hindex⟩

/-- A class called `index` that is not directly in the root namespace, in another letter case than
that. -/
theorem written_nodup_iff_nested :
    let ix := ({} : Index).add "a.php" "<?php namespace APP\\Sub; class index {}"
    let ctx := LinkContext.new "App" "/src" "/"
    let report := (run ctx (documentedClasses ix ctx) ix).1
    let written := ["out/Sub/index.json", "out/index.json"]
    let after := (writePages {} (report.pages "out/" ctx.rootSpace)).disk
    (writePages {} (report.pages "out/" ctx.rootSpace)).result = .ok written ∧
      report.failures = [] ∧
      ((written.map Path.components).Nodup ↔ ∀ v ∈ report.views,
        pageName ctx.rootSpace v.1 ≠ "index") ∧
      ∀ v ∈ report.views, after.read (Path.join "out/" (viewPath v.1 ctx.rootSpace)) =
          .ok v.2.toJson.render := by
  intro ix ctx report written after
  have hreach : Reached none ix := .add _ _ .new
  have hu : Unmapped ix := (kept_reached (by intro p hp; simp at hp) hreach).unmapped
  have hwritten : (writePages {} (report.pages "out/" ctx.rootSpace)).result = .ok written := by
    decide +kernel
  have htree : Disk.IsTree {} := ⟨rfl, fun place node hnode => by
    cases place with
    | nil => rfl
    | cons p ps => cases hnode⟩
  obtain ⟨-, -, hbuilt, -, hiff, hread⟩ := written_nodup_iff hreach rfl hwritten
  have hdistinct : (written.map Path.components).Nodup := by decide +kernel
  exact ⟨hwritten, hbuilt (Or.inl hu), hiff,
    fun v hv => (hread htree).2 v hv (hiff.mp hdistinct v hv)⟩

/-- A class called `index` directly in the root namespace: what is there in the end is the index
page. -/
theorem written_twice_of_index :
    let ix := ({} : Index).add "a.php" "<?php namespace App; class index {}"
    let ctx := LinkContext.new "App" "/src" "/"
    let report := (run ctx (documentedClasses ix ctx) ix).1
    let writing := writePages {} (report.pages "out" ctx.rootSpace)
    documentedClasses ix ctx = ["App\\index"] ∧
      writing.result = .ok ["out/index.json", "out/index.json"] ∧
      ¬ (["out/index.json", "out/index.json"].map Path.components).Nodup ∧
      writing.disk.read "out/index.json" = .ok report.indexPage.render := by
  decide +kernel

end Report

end ClassDocs

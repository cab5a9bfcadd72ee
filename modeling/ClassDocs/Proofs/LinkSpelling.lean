import ClassDocs.Proofs.LocalLinks

/-!
# Links and the spelling of names

A class name may be written in any letter case and with backslashes in front. A link is found in
four steps, and each of them compares names in a way of its own: the root namespace and the third
parties by a leading part of the text, exclusions by a leading part or the whole, the index by a
key, and the manual by a page that is named in lower case. None of them tells two spellings of one
name apart.

What the index remembers does not matter either. A page is found by the file of a class, and a
flattened class has the file of its declaration, so that a link can be read off the declarations
alone (`linkOf_eq_target`).
-/

namespace ClassDocs

namespace Name

/-- Once all leading backslashes are gone there is no further one to take away. -/
theorem unrooted_withoutRoot (name : String) : unrooted (withoutRoot name) = withoutRoot name := by
  unfold unrooted withoutRoot
  split
  · rename_i rest hrest
    rw [String.toList_ofList] at hrest
    have hhead := List.head?_dropWhile_not (· == '\\') name.toList
    rw [hrest] at hhead
    simp at hhead
  · rfl

end Name

namespace Index

theorem key_withoutRoot (name : String) : key (Name.withoutRoot name) = Builder.key name := by
  rw [key, Name.unrooted_withoutRoot, Builder.key]

end Index

/-- The page of a core class has its name in lower case. -/
theorem manualUrl_congr {name other : String} (h : Text.lower name = Text.lower other) :
    manualUrl name = manualUrl other := by
  unfold manualUrl
  exact congrArg (fun page => "https://www.php.net/manual/en/class." ++ page ++ ".php") h

namespace LinkContext

open Index (key)

theorem thirdPartyUrl?_congr (ctx : LinkContext) {name other : String}
    (h : Text.lower name = Text.lower other) :
    ctx.thirdPartyUrl? name = ctx.thirdPartyUrl? other := by
  simp only [thirdPartyUrl?, Name.inSpace_congr h]

/-- Where a name points to by the declarations of the classes, whatever else is known of them. -/
def target (ctx : LinkContext) (classes : Table ClassDecl) (name : String) : Option String :=
  if ctx.isLocal name then
    if ctx.isExcluded name then none
    else (classes.find? (key name)).bind fun c => ctx.pageUrl? c.file
  else if Index.coreClasses.contains (key name) && !classes.contains (key name) then
    some (manualUrl name)
  else ctx.thirdPartyUrl? name

/-- Names that are the same up to letter case, and have the same key, point to the same place. -/
theorem target_congr (ctx : LinkContext) (classes : Table ClassDecl) {name other : String}
    (h : Text.lower name = Text.lower other) (hkey : key name = key other) :
    ctx.target classes name = ctx.target classes other := by
  unfold target
  rw [ctx.isLocal_congr h, ctx.isExcluded_congr h, ctx.thirdPartyUrl?_congr h,
    manualUrl_congr h, hkey]

end LinkContext

namespace Index

open LinkContext

variable {ix ix' : Index} {project : Option Project}

/-- A flattened class is found in the file of its declaration. -/
theorem file_describe? (hk : Kept ix) (name : String) :
    (describe? name ix).1.map (·.file) = (ix.classes.find? (key name)).map (·.file) := by
  cases hfind : ix.classes.find? (key name) with
  | none => rw [describe?_unknown hk hfind, Option.map_none]
  | some c =>
    obtain ⟨m, hm, hheaded⟩ := describe?_headed hk hfind
    have hfile : m.file = c.file := by rw [hheaded]
    rw [hm, Option.map_some, Option.map_some, hfile]

/-- **A link is read off the declarations.** -/
theorem linkOf_eq_target (hk : Kept ix) (ctx : LinkContext) (name : String) :
    (linkOf ctx name ix).1 = ctx.target ix.classes (Name.withoutRoot name) := by
  unfold linkOf target
  split
  · split
    · rfl
    · show (describe? (Name.withoutRoot name) ix).1.bind _ = _
      have hbind : ∀ found : Option ClassDecl,
          (found.bind fun c => ctx.pageUrl? c.file) = (found.map (·.file)).bind ctx.pageUrl? := by
        intro found
        rw [Option.bind_map]
        rfl
      rw [hbind, hbind, file_describe? hk]
  · rw [get_bind, isInternal]
    split
    · rfl
    · rfl

/--
Two names that are the same up to letter case and leading backslashes have the same link, in all
states of an index that knows the same classes, whatever was asked before.
-/
theorem linkOf_eq_of_spelling (hu : Unmapped { project }) (h : Reached project ix)
    (h' : Reached project ix') (hclasses : ix'.classes = ix.classes) (ctx : LinkContext)
    {a b : String}
    (hspelling : Text.lower (Name.withoutRoot a) = Text.lower (Name.withoutRoot b)) :
    (linkOf ctx a ix).1 = (linkOf ctx b ix').1 := by
  have hkey : key (Name.withoutRoot a) = key (Name.withoutRoot b) := by
    rw [key_withoutRoot, key_withoutRoot]
    exact hspelling
  rw [linkOf_eq_target (kept_reached hu h), linkOf_eq_target (kept_reached hu h'), hclasses]
  exact ctx.target_congr ix.classes hspelling hkey

/-- A local class, a core class and one of a third party, each in two spellings, before and after
the first is described. -/
theorem linkOf_eq_of_spelling_thrice :
    let ix := ({} : Index).add "/p/src/Sub/Foo.php"
      "<?php namespace App\\Sub; class Foo extends Foo {}"
    let ix' := (describe "App\\Sub\\Foo" ix).2
    let ctx := LinkContext.new "App" "/p/src" "https://example.org"
    (linkOf ctx "App\\Sub\\Foo" ix).1 = some "https://example.org/Sub/Foo" ∧
      (linkOf ctx "App\\Sub\\Foo" ix).1 = (linkOf ctx "\\\\app\\SUB\\foo" ix').1 ∧
      (linkOf ctx "DateTime" ix).1 = some "https://www.php.net/manual/en/class.datetime.php" ∧
      (linkOf ctx "DateTime" ix).1 = (linkOf ctx "\\DATETIME" ix').1 ∧
      (linkOf ctx "Psr\\Log" ix).1 = (linkOf ctx "PSR\\log" ix').1 := by
  intro ix ix' ctx
  have hu : Unmapped { project := none } := by intro p hp; simp at hp
  have h : Reached none ix := .add _ _ .new
  have hclasses : ix'.classes = ix.classes := by
    have hkeeps :=
      describe_keeps (kept_reached hu h).unmapped "App\\Sub\\Foo" ix
        (kept_reached hu h).traced.table
    exact hkeeps.2.classes
  refine ⟨by decide +kernel,
    linkOf_eq_of_spelling hu h (.describe _ h) hclasses ctx (by decide +kernel),
    by decide +kernel, linkOf_eq_of_spelling hu h (.describe _ h) hclasses ctx (by decide +kernel),
    linkOf_eq_of_spelling hu h (.describe _ h) hclasses ctx (by decide +kernel)⟩

end Index

end ClassDocs

import ClassDocs.Proofs.Segments
import ClassDocs.Proofs.Tables
import ClassDocs.Proofs.Trimming
import ClassDocs.Source.Declaration
import Mathlib.Data.List.TakeWhile

/-!
# What a class name stands for

A class name is a list of segments, and so is everything it can be put together from: the namespace
around it, the name of a group, the name of an import. `meaning` says on segments which class is
meant, from the imports one after the other as they are written: every name in any form of `use`
statement is an `Import`, and the last one of a class whose alias is the first segment takes the
place of that segment. A scope finds the same in a table of aliases in lower case
(`segments_resolve`).
-/

namespace ClassDocs.Source

/-! ## Imports -/

/-- An imported name, in whatever form of `use` statement it stands. -/
structure Import where
  /-- What the statement says, or else the name itself; none for a class. -/
  kind : Option ImportKind
  /-- The name that a group is relative to. -/
  base : Option String
  item : UseItem

namespace Import

/-- The segments of the full name: those of the group and those of the name. -/
def path (i : Import) : List String :=
  (i.base.map fun base => Name.segments (Name.bare base)).getD [] ++ Name.segments
    (Name.unrooted i.item.name)

/-- The alias: the one given, or else the last segment of the full name. -/
def alias? (i : Import) : Option String := i.item.given.or i.path.getLast?

/-- Whether a class is imported under an alias, in any letter case. -/
def imports (i : Import) (segment : String) : Bool :=
  i.kind.isNone && i.alias?.any (Text.sameName · segment)

end Import

/-- The imports of a declaration. -/
def TopNode.imports : TopNode → List Import
  | .use statement =>
    statement.items.map fun item => ⟨statement.kind.or item.kind, statement.base, item⟩
  | .decl _ => []

/-- The segments of the class that is meant by those of a name, in a namespace with some imports.
An empty segment in front of others stands for a backslash in front of the name. -/
def meaning (space : Option String) (imports : List Import) : List String → List String
  | [] => []
  | first :: rest =>
    if first = "" ∧ rest ≠ [] then rest
    else
      match imports.reverse.find? (·.imports first) with
      | some i => i.path ++ rest
      | none => (space.map Name.segments).getD [] ++ first :: rest

/-! ## The table of aliases -/

namespace Import

/-- The full name. -/
def full (i : Import) : String := i.item.fullName i.base

theorem segments_full (i : Import) : Name.segments i.full = i.path := by
  obtain ⟨kind, base, item⟩ := i
  cases base with
  | none => rfl
  | some base =>
    have hchars : (Import.full ⟨kind, some base, item⟩).toList =
        (Name.bare base).toList ++ '\\' :: (Name.unrooted item.name).toList := by
      simp [full, UseItem.fullName]
    rw [Name.segments_append hchars]
    simp [path]

theorem alias?_eq (i : Import) : i.alias? = some (i.item.given.getD (Name.short i.full)) := by
  obtain ⟨last, hlast⟩ := Option.ne_none_iff_exists'.mp
    (mt List.getLast?_eq_none_iff.mp (Name.segments_ne_nil i.full))
  rw [alias?, ← segments_full, Name.short, hlast]
  cases i.item.given <;> rfl

/-- Aliases are compared in lower case. -/
theorem imports_eq (i : Import) (segment : String) :
    i.imports segment = (i.kind.isNone && (i.item.entry i.base).1 == Text.lower segment) := by
  rw [imports, alias?_eq, Option.any_some]
  rfl

end Import

/-- The entries of a statement are those of its class imports. -/
theorem entries_eq (statement : UseStatement) : statement.entries =
    ((TopNode.use statement).imports.filter (·.kind.isNone)).map fun i => i.item.entry i.base := by
  rw [UseStatement.entries, TopNode.imports, List.filter_map, List.map_map]
  cases statement.kind with
  | some kind => simp [Function.comp_def]
  | none => simp [Function.comp_def]

theorem imports_scopeOf (space : Option String) (nodes : List TopNode) :
    (scopeOf space nodes).imports =
      .ofList (((nodes.flatMap TopNode.imports).filter (·.kind.isNone)).map
        fun i => i.item.entry i.base) := by
  refine congrArg Table.ofList ?_
  induction nodes with
  | nil => rfl
  | cons node nodes ih =>
    rw [List.flatMap_cons, List.filter_append, List.map_append, ← ih]
    cases node with
    | use statement => rw [← entries_eq]; rfl
    | decl node => rfl

/-- Looking up an alias is looking for the last import of it. -/
theorem find?_scopeOf (space : Option String) (nodes : List TopNode) (segment : String) :
    (scopeOf space nodes).imports.find? (Text.lower segment) =
      ((nodes.flatMap TopNode.imports).reverse.find? (·.imports segment)).map Import.full := by
  rw [imports_scopeOf, Table.find?_ofList_eq, ← List.map_reverse, ← List.filter_reverse,
    List.find?_map, List.find?_filter, Option.map_map]
  simp only [Import.imports_eq, Bool.decide_and, Bool.decide_eq_true, Function.comp_apply]
  rfl

/-! ## Segments of a name -/

theorem segments_of_not_mem {cs : List Char} (h : '\\' ∉ cs) :
    Name.segments (.ofList cs) = [.ofList cs] := by
  rw [Name.segments_eq, String.toList_ofList, List.splitOn_eq_singleton h, List.map_singleton]

theorem segments_splitFirst (name : String) :
    Name.segments name =
      (Scope.splitFirst name).1 :: ((Scope.splitFirst name).2.map Name.segments).getD [] := by
  have hfront : '\\' ∉ name.toList.takeWhile (· != '\\') :=
    fun h => by simpa using List.mem_takeWhile_imp h
  have hsplit := List.takeWhile_append_dropWhile (p := (· != '\\')) (l := name.toList)
  cases hrest : name.toList.dropWhile (· != '\\') with
  | nil =>
    rw [hrest, List.append_nil] at hsplit
    rw [hsplit] at hfront
    simpa [Scope.splitFirst, hrest] using segments_of_not_mem hfront
  | cons c rest =>
    obtain rfl : c = '\\' := by
      simpa using Text.not_of_head?_dropWhile (p := (· != '\\')) (c := c)
        (congrArg List.head? hrest)
    rw [hrest] at hsplit
    simp [Name.segments_append hsplit.symm, segments_of_not_mem hfront, Scope.splitFirst, hrest]

/-! ## Names in a scope -/

/-- A name without a backslash in front has no empty segment in front of others. -/
theorem not_rooted {written : String} (h : ∀ rest, written.toList ≠ '\\' :: rest) :
    ¬ ((Scope.splitFirst written).1 = "" ∧
      ((Scope.splitFirst written).2.map Name.segments).getD [] ≠ []) := by
  rintro ⟨hfirst, hrest⟩
  cases hwritten : written.toList with
  | nil =>
    obtain rfl : written = "" := String.toList_eq_nil_iff.mp hwritten
    exact hrest rfl
  | cons c cs =>
    have hc : c ≠ '\\' := fun hc => h cs (hc ▸ hwritten)
    cases hmore : cs.dropWhile (· != '\\') with
    | nil => simp [Scope.splitFirst, hwritten, hc, hmore] at hrest
    | cons d more => simp [Scope.splitFirst, hwritten, hc, hmore] at hfirst

/-- A name put behind another one with a backslash. -/
theorem segments_behind (front back : String) :
    Name.segments (front ++ "\\" ++ back) = Name.segments front ++ Name.segments back := by
  have hchars : (front ++ "\\" ++ back).toList = front.toList ++ '\\' :: back.toList := by simp
  simpa using Name.segments_append hchars

theorem segments_resolve (space : Option String) (nodes : List TopNode) (written : String) :
    Name.segments ((scopeOf space nodes).resolve written) =
      meaning space (nodes.flatMap TopNode.imports) (Name.segments written) := by
  unfold Scope.resolve
  split
  · rename_i rest hroot
    have hchars : written.toList = [] ++ '\\' :: rest := hroot
    have hsegments : Name.segments written = "" :: Name.segments (.ofList rest) :=
      Name.segments_append hchars
    rw [hsegments, meaning, if_pos ⟨rfl, Name.segments_ne_nil _⟩]
  · rename_i hroot
    have hsegments := segments_splitFirst written
    have hnot := not_rooted hroot
    generalize Scope.splitFirst written = parts at hsegments hnot ⊢
    obtain ⟨first, rest⟩ := parts
    dsimp only at hsegments hnot ⊢
    rw [find?_scopeOf, hsegments, meaning, if_neg hnot]
    cases (nodes.flatMap TopNode.imports).reverse.find? (·.imports first) with
    | some i =>
      cases rest with
      | some rest => exact (segments_behind i.full rest).trans (congrArg (· ++ _) i.segments_full)
      | none => simpa using i.segments_full
    | none =>
      rw [← hsegments]
      cases space with
      | some space => exact segments_behind space written
      | none => rfl

/-- A name stands for the class that it means, whatever functions and constants are imported as
well. -/
theorem resolve_eq_meaning (space : Option String) (nodes : List TopNode) (written : String) :
    (scopeOf space nodes).resolve written =
        TypeExpr.joinTexts "\\"
          (meaning space (nodes.flatMap TopNode.imports) (Name.segments written)) ∧
      ∀ nodes' : List TopNode,
        (nodes'.flatMap TopNode.imports).filter (·.kind.isNone) =
            (nodes.flatMap TopNode.imports).filter (·.kind.isNone) →
          (scopeOf space nodes').resolve written = (scopeOf space nodes).resolve written := by
  refine ⟨?_, fun nodes' hclasses => ?_⟩
  · rw [← segments_resolve, Name.joinTexts_segments]
  · have hscope : scopeOf space nodes' = scopeOf space nodes := by
      rw [Scope.mk.injEq]
      exact ⟨rfl, by rw [imports_scopeOf, hclasses, ← imports_scopeOf]⟩
    rw [hscope]

/-- Two imports under one alias in different letter case, the second in a group. -/
def partImports : List TopNode :=
  [.use ⟨none, none, [⟨none, "Vendor\\Kit", some "piece"⟩]⟩,
    .use ⟨none, some "\\App\\Parts\\", [⟨none, "\\Item", some "PIECE"⟩]⟩]

/-- The same with a function and a constant under that alias. -/
def mixedImports : List TopNode :=
  [.use ⟨none, none, [⟨none, "Vendor\\Kit", some "piece"⟩]⟩,
    .use ⟨none, some "\\App\\Parts\\",
      [⟨none, "\\Item", some "PIECE"⟩, ⟨some .const, "Piece", none⟩]⟩,
    .use ⟨some .function, none, [⟨none, "Strings\\piece", none⟩]⟩]

theorem resolve_eq_meaning_group :
    (scopeOf (some "Shop") partImports).resolve "Piece\\Screw" = "App\\Parts\\Item\\Screw" ∧
      (scopeOf (some "Shop") mixedImports).resolve "Piece\\Screw" =
        (scopeOf (some "Shop") partImports).resolve "Piece\\Screw" := by
  have hmeans := resolve_eq_meaning (some "Shop") partImports "Piece\\Screw"
  refine ⟨hmeans.1.trans ?_, hmeans.2 mixedImports rfl⟩
  decide +kernel

end ClassDocs.Source

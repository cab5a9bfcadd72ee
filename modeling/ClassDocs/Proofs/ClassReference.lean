import ClassDocs.Proofs.TypeChoice

/-!
# A class with and without type parameters

`Collection` and `Collection<int>` are resolved apart from each other: one by the words, template
parameters and imports that a name can stand for, the other by those that can stand in front of
type parameters. Where the name stands for a class, both come to the same class, with two
exceptions (`generic_names_class_iff`).

`parent` is a word of its own only without parameters: `parent<int>` is read as a class named
`parent` in the enclosing namespace. And a template parameter that is called like one of the words
for a class is looked for behind these words in the one place, and in front of them in the other.
-/

namespace ClassDocs.TypeContext

open TypeRef

variable {ctx : TypeContext}

/-- What a name that stands for a class can be, and the class it stands for. -/
inductive ClassWord (ctx : TypeContext) (name : String) : TypeRef → Prop where
  | own : Text.lower name ∈ ["self", "static", "$this"] → ClassWord ctx name (object ctx.root)
  | parent {parent : String} : Text.lower name = "parent" → ctx.parent = some parent →
      ClassWord ctx name (object parent)
  | other : Text.lower name ∉ ["self", "static", "$this", "parent"] → ctx.IsClassBase name →
      ClassWord ctx name (object (ctx.scope.resolve name))

theorem classWord_of_convertName {name : String} {t : TypeRef} (h : ctx.convertName name = [t])
    (hkind : t.kind = .object) : ctx.ClassWord name t := by
  obtain ⟨-, hpseudo, hbuiltin, hhyphen⟩ :=
    convertName_object (h ▸ List.mem_singleton_self t) hkind
  unfold convertName at h
  simp only [hpseudo] at h
  split at h
  case h_1 heq | h_2 heq | h_3 heq =>
    obtain rfl := (List.singleton_inj.mp h).symm
    exact .own (by simp [heq])
  case h_4 heq =>
    obtain ⟨parent, hparent, rfl⟩ : ∃ parent, ctx.parent = some parent ∧ object parent = t := by
      cases hparent : ctx.parent <;> simp_all
    exact .parent heq hparent
  case h_11 hself hstatic hthis hparent harray _ hlist _ _ _ =>
    split_ifs at h with _ htemplate
    case neg =>
      obtain rfl := (List.singleton_inj.mp h).symm
      exact .other (by simpa using ⟨hself, hstatic, hthis, hparent⟩)
        ⟨by simpa using ⟨harray, hlist⟩, hpseudo, hbuiltin, hhyphen, by simpa using htemplate⟩
    all_goals
      obtain rfl := (List.singleton_inj.mp h).symm
      cases hkind
  all_goals
    obtain rfl := (List.singleton_inj.mp h).symm
    cases hkind

/-- In front of type parameters a word for a class can only be taken for a template parameter. -/
theorem isClassBase_of_word {name : String}
    (hword : Text.lower name ∈ ["self", "static", "$this", "parent"]) :
    ctx.IsClassBase name ↔ name ∉ ctx.templates := by
  have hplain : ∀ word ∈ ["self", "static", "$this", "parent"], word ∉ ["array", "list"] ∧
      pseudoType? word = none ∧ word ∉ builtinKeywords ∧ '-' ∉ word.toList := by decide
  obtain ⟨harray, hpseudo, hbuiltin, hhyphen⟩ := hplain _ hword
  exact ⟨fun h => h.2.2.2.2, fun h => ⟨harray, hpseudo, hbuiltin, hhyphen, h⟩⟩

theorem ClassWord.isClassBase_iff {name : String} {t : TypeRef} (h : ctx.ClassWord name t) :
    ctx.IsClassBase name ↔ name ∉ ctx.templates := by
  cases h with
  | own hword => exact isClassBase_of_word (List.mem_append_left ["parent"] hword)
  | parent hword _ => exact isClassBase_of_word (by simp [hword])
  | other _ hbase => exact iff_of_true hbase hbase.2.2.2.2

/-- With parameters a word for a class is looked up like any other name if it is `parent`, and else
comes to the class that it stands for. -/
theorem ClassWord.genericClass_name_iff {name : String} {t : TypeRef} (h : ctx.ClassWord name t)
    (params : List TypeExpr) : (ctx.genericClass name params).name = t.name ↔
      (Text.lower name = "parent" → Name.unrooted (ctx.scope.resolve name) = t.name) := by
  unfold genericClass
  cases h with
  | own hword =>
    have hparent : Text.lower name ≠ "parent" := fun heq => by
      rw [heq] at hword
      revert hword
      decide
    simp only [objectCollection, object, if_pos hword, hparent, false_implies]
  | parent hword _ => simp [objectCollection, object, hword]
  | other hword _ =>
    have hown : Text.lower name ∉ ["self", "static", "$this"] := fun hmem =>
      hword (List.mem_append_left ["parent"] hmem)
    simp only [objectCollection, object, if_neg hown, implies_true]

theorem ClassWord.eq_object {name : String} {t : TypeRef} (h : ctx.ClassWord name t) :
    ∃ className, t = object className := by
  cases h <;> exact ⟨_, rfl⟩

/-- **A generic class is the class that its name stands for**, as a collection with the keys and
values of its type parameters, exactly if the name is no template parameter and if, where it is
`parent`, the enclosing scope has the parent class under just that name. -/
theorem generic_names_class_iff (ctx : TypeContext) (base : String)
    (params : List TypeExpr) (t : TypeRef) (h : ctx.convert (.name base) = [t])
    (hkind : t.kind = .object) :
    let found := base ∉ ctx.templates ∧
      (Text.lower base = "parent" → Name.unrooted (ctx.scope.resolve base) = t.name)
    let types := keysAndValues (params.map fun p => compress .native (ctx.convert p))
    ((∃ g, ctx.convert (.generic base params) = [g] ∧ g.kind = .object ∧ g.name = t.name ∧
      g.isCollection = true) ↔
      found) ∧
    (ctx.convert (.generic base params) =
      [{ t with isCollection := true, keys := types.1, values := types.2 }] ↔
      found) := by
  intro found types
  rw [convert] at h
  have hword := classWord_of_convertName h hkind
  rw [convert]
  by_cases hbase : ctx.IsClassBase base
  · have hfound : found ↔ (ctx.genericClass base params).name = t.name := by
      rw [hword.genericClass_name_iff params]
      exact and_iff_right (hword.isClassBase_iff.mp hbase)
    rw [convertGeneric_of_class hbase, hfound]
    refine ⟨?_, ?_⟩
    · constructor
      · rintro ⟨g, hg, -, hname, -⟩
        rw [List.singleton_inj.mp hg, hname]
      · exact fun hname => ⟨_, rfl, rfl, hname, rfl⟩
    · obtain ⟨className, rfl⟩ := hword.eq_object
      rw [List.singleton_inj]
      simp only [genericClass, objectCollection, object, TypeRef.mk.injEq,
        Option.some.injEq, and_self, and_true, true_and, types]
  · -- a template parameter comes to no class at all
    have hfound : ¬ found := fun hf => hbase (hword.isClassBase_iff.mpr hf.1)
    have hnone := convertGeneric_of_not_class hbase (ctx.convertEach params)
    refine ⟨iff_of_false ?_ hfound, iff_of_false ?_ hfound⟩
    · rintro ⟨g, hg, hclass, -⟩
      exact hnone g (hg ▸ List.mem_singleton_self g) hclass
    · intro hg
      rw [hg] at hnone
      exact hnone _ List.mem_cons_self hkind

/-- An imported name with a key and a value type. -/
theorem generic_names_class_iff_imported :
    let ctx : TypeContext :=
      { scope := { space := some "App", imports := .ofList [("support", "Lib\\Support")] },
        root := "App\\Book",
        templates := ["T"], owner := "App\\Book::$x" }
    ctx.convert (.name "Support\\Bag") = [object "Lib\\Support\\Bag"] ∧
      ctx.convert (.generic "Support\\Bag" [.name "int", .name "T"]) =
        [objectCollection "Lib\\Support\\Bag" [builtin "int"] [builtin "T"]] := by
  intro ctx
  have hplain : ctx.convert (.name "Support\\Bag") = [object "Lib\\Support\\Bag"] := by decide
  exact ⟨hplain,
    (generic_names_class_iff ctx _ [.name "int", .name "T"] _ hplain rfl).2.mpr
      ⟨by decide, by decide⟩⟩

/-- `parent` is the class `App\Base`, and `parent<int>` is a class `App\parent`. -/
theorem generic_parent_names_other :
    let ctx : TypeContext :=
      { scope := { space := some "App" }, root := "App\\Book", parent := some "App\\Base",
        owner := "App\\Book::$x" }
    ctx.convert (.name "parent") = [object "App\\Base"] ∧
      ctx.convert (.generic "parent" [.name "int"]) =
          [objectCollection "App\\parent" [] [builtin "int"]] := by
  decide

end ClassDocs.TypeContext

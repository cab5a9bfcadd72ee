import ClassDocs.Proofs.ClassNames
import ClassDocs.Proofs.TypeTokens

/-!
# One source for each type

A member's type comes from its annotation or from its native declaration, never from both
(`unify_eq_native_or_annotated`). An annotation that names a generic class is used in another way
if there is a native class: the native list stays as it is, but for the classes that the annotation
gives type parameters to.

What an annotation has to offer there is said apart from the conversion of types: `generics` lists
the generic classes that stand in it as alternatives, and `NamesGenericClass` says where one has to
stand for the native list to be kept. The conversion adds nothing to these but nullability, and the
first one of a class stays the first (`find?_convert`).
-/

namespace ClassDocs.TypeContext

open TypeRef

variable {ctx : TypeContext}

/-! ## Generic classes -/

/-- The name in front of type parameters is that of a class: no word for an array, no pseudo-type,
no keyword and no template parameter. -/
def IsClassBase (ctx : TypeContext) (base : String) : Prop :=
  Text.lower base ∉ ["array", "list"] ∧ pseudoType? (Text.lower base) = none ∧
    Text.lower base ∉ builtinKeywords ∧ '-' ∉ (Text.lower base).toList ∧ base ∉ ctx.templates

instance (base : String) : Decidable (ctx.IsClassBase base) :=
  inferInstanceAs (Decidable (_ ∧ _ ∧ _ ∧ _ ∧ _))

/-- The types of keys and values by type parameters: a single one is for the values, of several the
first is for the keys. -/
def keysAndValues : List (List TypeRef) → List TypeRef × List TypeRef
  | [] => ([], [])
  | [values] => ([], values)
  | keys :: values :: _ => (keys, values)

/-- The generic class of a name with type parameters. -/
def genericClass (ctx : TypeContext) (base : String) (params : List TypeExpr) : TypeRef :=
  let types := keysAndValues (params.map fun t => compress .native (ctx.convert t))
  objectCollection
    (if Text.lower base ∈ ["self", "static", "$this"] then ctx.root else ctx.scope.resolve base)
    types.1 types.2

/-- A generic class stands in a type: alone, behind `?` or in a union. -/
inductive NamesGenericClass (ctx : TypeContext) : TypeExpr → Prop where
  | alone {base : String} (params : List TypeExpr) :
      ctx.IsClassBase base → NamesGenericClass ctx (.generic base params)
  | nullable {inner : TypeExpr} :
      NamesGenericClass ctx inner → NamesGenericClass ctx (.nullable inner)
  | union {member : TypeExpr} {members : List TypeExpr} :
      member ∈ members → NamesGenericClass ctx member → NamesGenericClass ctx (.union members)

mutual

/-- The generic classes among the alternatives of a type, in order. -/
def generics (ctx : TypeContext) : TypeExpr → List TypeRef
  | .generic base params => if ctx.IsClassBase base then [ctx.genericClass base params] else []
  | .nullable inner => ctx.generics inner
  | .union members | .inter members => ctx.genericsAll members
  | .conditional yes no => ctx.generics yes ++ ctx.generics no
  | _ => []

/-- The generic classes among the alternatives of several types. -/
def genericsAll (ctx : TypeContext) : List TypeExpr → List TypeRef
  | [] => []
  | t :: ts => ctx.generics t ++ ctx.genericsAll ts

end

/-- A class with the type parameters of the first generic class of its name. Its nullability
stays. -/
def parametrise (offered : List TypeRef) (t : TypeRef) : TypeRef :=
  if t.kind = .object then
    match offered.find? (Text.sameName ·.name t.name) with
    | some g => g.withNullable t.nullable
    | none => t
  else t

/-! ## Names -/

theorem kind_of_pseudoType? {keyword : String} {types : List TypeRef}
    (h : pseudoType? keyword = some types) :
    ∀ t ∈ types, t.kind ≠ .object := by
  unfold pseudoType? at h
  split at h <;> cases h <;> simp [builtin, null]

theorem isPseudoName_of_mem {cs : List Char} (h : '-' ∈ cs) :
    convertName.isPseudoName cs = true := by
  fun_induction convertName.isPseudoName cs with
  | case1 => cases h
  | case2 => rfl
  | case3 c cs _ ih =>
    rcases List.mem_cons.mp h with rfl | h
    · rfl
    · rw [ih h, Bool.or_true]

/-- Letter case does not make or unmake a hyphen. -/
theorem mem_lower_hyphen {name : String} (h : '-' ∈ (Text.lower name).toList) :
    '-' ∈ name.toList := by
  rw [Text.lower, String.toList_ofList] at h
  obtain ⟨c, hc, hlower⟩ := List.mem_map.mp h
  have hhyphen := TypeExpr.apply_toLower (p := (· == '-')) (by decide) c
  rw [hlower] at hhyphen
  obtain rfl : c = '-' := by simpa using hhyphen.symm
  exact hc

/-- A name stands for a class only if it is no pseudo-type and no keyword, and then for one without
parameters. -/
theorem convertName_object {name : String} {t : TypeRef} (ht : t ∈ ctx.convertName name)
    (hkind : t.kind = .object) :
    t.isCollection = false ∧ pseudoType? (Text.lower name) = none ∧
      Text.lower name ∉ builtinKeywords ∧ '-' ∉ (Text.lower name).toList := by
  unfold convertName at ht
  cases hpseudo : pseudoType? (Text.lower name) with
  | some types =>
    simp only [hpseudo] at ht
    exact absurd hkind (kind_of_pseudoType? hpseudo t ht)
  | none =>
    simp only [hpseudo] at ht
    split at ht
    case h_1 heq | h_2 heq | h_3 heq =>
      obtain rfl := List.mem_singleton.mp ht
      rw [heq]
      exact ⟨rfl, rfl, by decide, by decide⟩
    case h_4 heq =>
      -- `parent` stands for nothing if there is no parent
      obtain ⟨parent, -, rfl⟩ : ∃ parent, ctx.parent = some parent ∧ object parent = t := by
        simpa using ht
      rw [heq]
      exact ⟨rfl, rfl, by decide, by decide⟩
    case h_11 =>
      split_ifs at ht with hbuiltin _ hpseudo
      case neg =>
        -- a class after all, and a hyphen would have made it a pseudo-type
        obtain rfl := List.mem_singleton.mp ht
        refine ⟨rfl, rfl, by simpa using hbuiltin, fun hhyphen => hpseudo ?_⟩
        exact isPseudoName_of_mem (mem_lower_hyphen hhyphen)
      all_goals
        obtain rfl := List.mem_singleton.mp ht
        cases hkind
    -- the words for arrays and callables
    all_goals
      obtain rfl := List.mem_singleton.mp ht
      cases hkind

/-! ## Generic types -/

theorem convertEach_eq (params : List TypeExpr) :
    ctx.convertEach params = params.map fun t => compress .native (ctx.convert t) := by
  induction params with
  | nil => rfl
  | cons t params ih => rw [convertEach, ih, List.map_cons]

/-- What stands for a generic class. -/
theorem convertGeneric_of_class {base : String} (h : ctx.IsClassBase base)
    (params : List TypeExpr) :
    ctx.convertGeneric base (ctx.convertEach params) = [ctx.genericClass base params] := by
  obtain ⟨harray, hpseudo, hbuiltin, hhyphen, htemplate⟩ := h
  have hplain :
      ((pseudoType? (Text.lower base)).isSome || builtinKeywords.contains (Text.lower base) ||
        (Text.lower base).toList.contains '-') = false := by
    simp [hpseudo, hbuiltin, hhyphen]
  have htemplate : ctx.templates.contains base = false := by simpa using htemplate
  rw [convertEach_eq]
  unfold convertGeneric genericClass
  generalize params.map (fun t => compress .native (ctx.convert t)) = types
  split
  rename_i keys values hparams
  dsimp only
  split
  case h_1 heq | h_3 heq => exact absurd (by rw [heq]; decide) harray
  case h_2 heq | h_4 heq => exact absurd (by rw [heq]; decide) hhyphen
  case h_5 heq | h_6 heq => exact absurd (by rw [heq]; decide) hbuiltin
  case h_7 =>
    -- only the way the class name is looked up and the parameters are dealt out is left to compare
    rw [hplain, htemplate, if_neg Bool.false_ne_true, if_neg Bool.false_ne_true]
    have htypes : (keys, values) = keysAndValues types := by
      rw [← hparams]
      rcases types with _ | ⟨value, _ | ⟨key, rest⟩⟩ <;> rfl
    rw [← htypes]
    dsimp only
    congr 2
    split <;> simp_all

/-- What stands for any other generic type is no class. -/
theorem convertGeneric_of_not_class {base : String} (h : ¬ ctx.IsClassBase base)
    (params : List (List TypeRef)) :
    ∀ t ∈ ctx.convertGeneric base params, t.kind ≠ .object := by
  intro t ht hkind
  unfold convertGeneric at ht
  split at ht
  dsimp only at ht
  split at ht
  case h_7 harray _ hlist _ _ _ =>
    split_ifs at ht with hkeyword htemplate
    · -- the parameters of a keyword or pseudo-type are dropped, and its name is no class
      obtain ⟨-, hpseudo, hbuiltin, hhyphen⟩ := convertName_object ht hkind
      simp [hpseudo, hbuiltin, hhyphen] at hkeyword
    · obtain rfl := List.mem_singleton.mp ht
      cases hkind
    · simp only [Bool.or_eq_true, not_or, Bool.not_eq_true, Option.isSome_eq_false_iff,
        Option.isNone_iff_eq_none, List.contains_eq_mem, decide_eq_false_iff_not]
          at hkeyword htemplate
      exact h ⟨by simpa using ⟨harray, hlist⟩, hkeyword.1.1, hkeyword.1.2, hkeyword.2, htemplate⟩
  all_goals
    obtain rfl := List.mem_singleton.mp ht
    cases hkind

theorem any_object_convertGeneric (base : String) (params : List TypeExpr) :
    (ctx.convertGeneric base (ctx.convertEach params)).any (·.kind == .object) = true ↔
      ctx.IsClassBase base := by
  by_cases h : ctx.IsClassBase base
  · rw [convertGeneric_of_class h]
    exact iff_of_true rfl h
  · refine iff_of_false (fun hany => ?_) h
    obtain ⟨t, ht, hkind⟩ := List.any_eq_true.mp hany
    exact convertGeneric_of_not_class h _ t ht (by simpa using hkind)

mutual

theorem namesGeneric_iff :
    ∀ type : TypeExpr, ctx.namesGeneric type = true ↔ ctx.NamesGenericClass type
  | .generic base params => by
    rw [namesGeneric, any_object_convertGeneric]
    exact ⟨.alone params, fun h => by cases h; assumption⟩
  | .nullable inner => by
    rw [namesGeneric, namesGeneric_iff inner]
    exact ⟨.nullable, fun h => by cases h; assumption⟩
  | .union members => by
    rw [namesGeneric, anyNamesGeneric_iff members]
    refine ⟨fun ⟨member, hmem, h⟩ => .union hmem h, fun h => ?_⟩
    cases h with
    | union hmem h => exact ⟨_, hmem, h⟩
  | .name _ | .inter _ | .array _ | .shape _ _ | .callable _ _ _ | .literal _
      | .conditional _ _ => by
    exact iff_of_false (by simp [namesGeneric]) nofun

theorem anyNamesGeneric_iff : ∀ members : List TypeExpr,
    ctx.anyNamesGeneric members = true ↔ ∃ member ∈ members, ctx.NamesGenericClass member
  | [] => by simp [anyNamesGeneric]
  | t :: ts => by
    rw [anyNamesGeneric, Bool.or_eq_true, namesGeneric_iff t, anyNamesGeneric_iff ts]
    simp

end

instance (type : TypeExpr) : Decidable (ctx.NamesGenericClass type) :=
  decidable_of_iff _ (namesGeneric_iff type)

/-! ## The first generic class of a name -/

/-- Whether a type is a generic class of a name. -/
def isGenericOf (name : String) (t : TypeRef) : Bool :=
  t.isCollection && t.className?.any (Text.sameName · name)

theorem isGenericOf_withNullable (name : String) (t : TypeRef) (nullable : Bool) :
    isGenericOf name (t.withNullable nullable) = isGenericOf name t := rfl

theorem isGenericOf_of_kind {name : String} {t : TypeRef} (hnamed : t.Named)
    (h : t.kind ≠ .object) : isGenericOf name t = false := by
  rw [isGenericOf, hnamed, if_neg h, Option.any_none, Bool.and_false]

theorem find?_foldl_addNew (p : TypeRef → Bool) (types : List TypeRef) : ∀ sofar : List TypeRef,
    (types.foldl addNew sofar).find? p = (sofar.find? p).or (types.find? p) := by
  induction types with
  | nil => intro sofar; simp
  | cons t types ih =>
    intro sofar
    rw [List.foldl_cons, ih, addNew]
    split
    · -- the type is there already, so that it is found before
      rename_i hmem
      cases hp : p t with
      | false => rw [List.find?_cons_of_neg (by simp [hp])]
      | true =>
        have hsome : (sofar.find? p).isSome = true := by
          rw [List.find?_isSome]
          exact ⟨t, by simpa using hmem, hp⟩
        obtain ⟨found, hfound⟩ := Option.isSome_iff_exists.mp hsome
        rw [hfound, Option.some_or, Option.some_or]
    · rw [List.find?_append, Option.or_assoc]
      cases hp : p t <;> simp [hp]

theorem find?_concretes (name : String) {types : List TypeRef} (hnamed : ∀ t ∈ types, t.Named) :
    (concretes types).find? (isGenericOf name) = types.find? (isGenericOf name) := by
  rw [concretes, find?_foldl_addNew, List.find?_nil, Option.none_or]
  induction types with
  | nil => rfl
  | cons t types ih =>
    rw [List.forall_mem_cons] at hnamed
    by_cases hnull : t.isNull = true
    · have hkind : t.kind ≠ .object := by simp_all [isNull]
      rw [List.filter_cons_of_neg (by simp [hnull]), ih hnamed.2,
        List.find?_cons_of_neg (by simp [isGenericOf_of_kind hnamed.1 hkind])]
    · rw [List.filter_cons_of_pos (by simp [hnull]), List.find?_cons, List.find?_cons, ih hnamed.2]

/-- Compressing `null` changes nothing but nullability. -/
theorem find?_compress (source : Source) (name : String) {types : List TypeRef}
    (hnamed : ∀ t ∈ types, t.Named) (nullable : Bool) :
    ((compress source types).find? (isGenericOf name)).map (·.withNullable nullable) =
      (types.find? (isGenericOf name)).map (·.withNullable nullable) := by
  rw [← find?_concretes name hnamed]
  have hnull : isGenericOf name null = false := rfl
  have hhead : ∀ (t : TypeRef) (rest : List TypeRef),
      ((t.withNullable true :: rest).find? (isGenericOf name)).map (·.withNullable nullable) =
        ((t :: rest).find? (isGenericOf name)).map (·.withNullable nullable) := by
    intro t rest
    rw [List.find?_cons, List.find?_cons, isGenericOf_withNullable]
    cases isGenericOf name t <;> rfl
  unfold compress
  split
  · -- nothing but `null`, one type, several annotated types, several native types
    split
    · rename_i hnone
      rw [hnone, List.find?_cons_of_neg (by simp [hnull])]
    · rename_i hone
      rw [hone, hhead]
    · rename_i hmany
      rw [hmany, hhead]
    · rw [List.find?_append, List.find?_cons_of_neg (by simp [hnull]), List.find?_nil,
        Option.or_none]
  · rfl

theorem find?_convert_of_forall {name : String} {type : TypeExpr}
    (h : ∀ t ∈ ctx.convert type, t.kind = .object → t.isCollection = false) :
    (ctx.convert type).find? (isGenericOf name) = none := by
  rw [List.find?_eq_none]
  intro t ht
  by_cases hkind : t.kind = .object
  · simp [isGenericOf, h t ht hkind]
  · simp [isGenericOf_of_kind (named_of_mem_convert ht) hkind]

mutual

/-- **The first generic class of a name** among the alternatives is the first one that was
written. -/
theorem find?_convert (name : String) (nullable : Bool) : ∀ type : TypeExpr,
    ((ctx.convert type).find? (isGenericOf name)).map (·.withNullable nullable) =
      ((ctx.generics type).find? (Text.sameName ·.name name)).map (·.withNullable nullable)
  | .generic base params => by
    rw [generics]
    split
    · rename_i h
      rw [convert, convertGeneric_of_class h, List.find?_singleton, List.find?_singleton]
      rfl
    · rename_i h
      rw [find?_convert_of_forall]
      · rfl
      · rw [convert]
        exact fun t ht hkind => absurd hkind (convertGeneric_of_not_class h _ t ht)
  | .nullable inner => by
    have hnull : [null].find? (isGenericOf name) = none := rfl
    have hnamed : ∀ t ∈ ctx.convert inner ++ [null], t.Named :=
      List.forall_mem_append.mpr ⟨fun _ => named_of_mem_convert, by simp [Made.null.named]⟩
    rw [convert, generics, find?_compress _ _ hnamed, List.find?_append, hnull, Option.or_none,
      find?_convert name nullable inner]
  | .union members => by rw [convert, generics, find?_convertAll name nullable members]
  | .inter members => by rw [convert, generics, find?_convertAll name nullable members]
  | .conditional yes no => by
    rw [convert, generics, List.find?_append, List.find?_append, Option.map_or, Option.map_or,
      find?_convert name nullable yes, find?_convert name nullable no]
  | .name text => by
    rw [find?_convert_of_forall]
    · rfl
    · rw [convert]
      exact fun t ht hkind => (convertName_object ht hkind).1
  | .array _ => rfl
  | .shape _ _ => by
    rw [find?_convert_of_forall]
    · rfl
    · rw [convert]
      unfold convertShape
      split <;> simp [builtin, array]
  | .callable _ _ _ => by
    rw [find?_convert_of_forall]
    · rfl
    · rw [convert]
      split <;> simp [object, callable]
  | .literal literal => by cases literal <;> rfl

theorem find?_convertAll (name : String) (nullable : Bool) : ∀ members : List TypeExpr,
    ((ctx.convertAll members).find? (isGenericOf name)).map (·.withNullable nullable) =
      ((ctx.genericsAll members).find? (Text.sameName ·.name name)).map (·.withNullable nullable)
  | [] => rfl
  | t :: ts => by
    rw [convertAll, genericsAll, List.find?_append, List.find?_append, Option.map_or,
      Option.map_or, find?_convert name nullable t, find?_convertAll name nullable ts]

end

/-! ## The choice -/

theorem refineWith_eq (type : TypeExpr) {t : TypeRef} (hnamed : t.Named) :
    refineWith (ctx.convert type) t = parametrise (ctx.generics type) t := by
  unfold refineWith parametrise
  rw [hnamed]
  by_cases hkind : t.kind = .object
  · simp only [hkind, if_true]
    change (match (ctx.convert type).find? (isGenericOf t.name) with
      | some found => found.withNullable t.nullable
      | none => t) = _
    have hfind : ((ctx.convert type).find? (isGenericOf t.name)).map (·.withNullable t.nullable) =
      ((ctx.generics type).find? (Text.sameName ·.name t.name)).map (·.withNullable t.nullable) :=
      find?_convert t.name t.nullable type
    revert hfind
    cases (ctx.convert type).find? (isGenericOf t.name) <;>
      cases (ctx.generics type).find? (Text.sameName ·.name t.name) <;> simp
  · simp [hkind]

theorem refineNative_eq (type declared : TypeExpr) : ctx.refineNative type declared =
    let native := ctx.unifyNative declared
    if ∃ t ∈ native.types, t.kind = .object then
      ({ native with types := native.types.map (parametrise (ctx.generics type)) }, [])
    else ctx.unifyAnnotated type := by
  have hrefined : (ctx.unifyNative declared).types.map (refineWith (ctx.convert type)) =
      (ctx.unifyNative declared).types.map (parametrise (ctx.generics type)) :=
    List.map_congr_left fun _ ht => refineWith_eq type (named_of_mem_unifyNative ht)
  unfold refineNative
  simp only [hrefined, List.any_eq_true, beq_iff_eq]

/--
The type of a member is what its annotation gives, or what its native declaration gives with some
of its classes parametrised. The latter is so exactly if the annotation names a generic class and
there is a native class. Without a readable annotation the native type stands, and an annotation
that cannot be read is reported.
-/
theorem unify_eq_native_or_annotated (ctx : TypeContext) (tag : Option Tag)
    (native : Option TypeExpr) :
    ctx.unify tag native =
      let nativeOnly := ctx.unify none native
      match tag.map Tag.value with
      | none | some .untyped => nativeOnly
      | some (.malformed raw cause) =>
        (nativeOnly.1, nativeOnly.2 ++ [.malformedType ctx.owner raw cause])
      | some (.typed type) =>
        if ctx.NamesGenericClass type ∧ ∃ t ∈ nativeOnly.1.types, t.kind = .object then
          ({ nativeOnly.1 with types := nativeOnly.1.types.map (parametrise (ctx.generics type)) },
            nativeOnly.2)
        else ctx.unifyAnnotated type := by
  unfold unify
  cases hvalue : tag.map Tag.value with
  | none => rfl
  | some value =>
    cases value with
    | untyped => rfl
    | malformed raw cause => rfl
    | typed type =>
      cases native with
      | none => simp
      | some declared =>
        simp only [Option.map_some, Option.getD_some, namesGeneric_iff, refineNative_eq]
        by_cases hgeneric : ctx.NamesGenericClass type <;> simp [hgeneric]

end ClassDocs.TypeContext

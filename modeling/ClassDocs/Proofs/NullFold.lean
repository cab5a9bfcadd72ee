import ClassDocs.Proofs.BareNull
import Mathlib.Data.List.Nodup

/-!
# Where the `null` of an annotated list goes

In an annotated list of several types a `null` is folded into the first of them, and the fold is
reported.

Repetitions are dropped before the fold. So the first type can come out equal to one that stands
behind it, as in `int|?int|null`, and this is the only way in which an annotated list has a type
twice (`nodup_compress_annotated_iff`). A native list never has one twice; type parameters from the
annotation can make two native classes equal (`nodup_map_parametrise_iff`).

The `null` of a `?T` is taken in without a report while `T` is converted. But next to several types
it stays in the list, and then it is folded and reported like any other: `?T` is reported exactly
if `T` comes to several types (`absorber?_nullable`).
-/

namespace ClassDocs

namespace TypeExpr

/-- Whether an alternative is one of the words that stand for several builtins. Type parameters
behind it do not count. -/
def saysSeveral : TypeExpr → Bool
  | .name text | .generic text _ =>
    ["scalar", "number", "numeric", "array-key"].contains (Text.lower text)
  | _ => false

theorem isAlternative_of_saysSeveral {t : TypeExpr} (h : t.saysSeveral = true) :
    t.isAlternative = true := by
  cases t with
  | name | generic => rfl
  | nullable | union | inter | conditional | array | shape | callable | literal => cases h

end TypeExpr

namespace TypeContext

open TypeRef TypeExpr

variable {ctx : TypeContext}

/-! ## Types up to nullability -/

theorem withNullable_eq_self {t : TypeRef} {nullable : Bool} (h : t.nullable = nullable) :
    t.withNullable nullable = t := by
  subst h
  cases t
  rfl

/-- A type other than `null` is in a list, as it is or as a nullable one. -/
def HasForm (types : List TypeRef) (t : TypeRef) : Prop :=
  ∃ u ∈ types, u.isNull = false ∧ u.withNullable false = t

theorem hasForm_append {types types' : List TypeRef} {t : TypeRef} :
    HasForm (types ++ types') t ↔ HasForm types t ∨ HasForm types' t := by
  simp [HasForm, or_and_right, exists_or]

theorem hasForm_concretes (types : List TypeRef) {t : TypeRef} :
    HasForm (concretes types) t ↔ HasForm types t := by
  refine exists_congr fun u => ?_
  rw [mem_concretes, and_assoc, and_self_left]

theorem not_hasForm_null {t : TypeRef} : ¬ HasForm [null] t := by
  rintro ⟨u, hu, hnull, -⟩
  obtain rfl := List.mem_singleton.mp hu
  cases hnull

theorem hasForm_withNullable_cons {t u : TypeRef} {rest : List TypeRef} :
    HasForm (u.withNullable true :: rest) t ↔ HasForm (u :: rest) t := by
  simp only [HasForm, List.exists_mem_cons_iff]
  rfl

/-- Compressing a list changes no type but for its nullability. -/
theorem hasForm_compress (source : Source) {types : List TypeRef} {t : TypeRef} :
    HasForm (compress source types) t ↔ HasForm types t := by
  rw [← hasForm_concretes types]
  unfold compress
  split
  · split
    · rename_i hnone
      rw [hnone]
      exact iff_of_false not_hasForm_null (by simp [HasForm])
    · rename_i hone
      rw [hone, hasForm_withNullable_cons]
    · rename_i hmany
      rw [hmany, hasForm_withNullable_cons]
    · rw [hasForm_append, or_iff_left not_hasForm_null]
  · rfl

theorem nullable_pseudoType? {keyword : String} {types : List TypeRef}
    (h : pseudoType? keyword = some types) :
    ∀ t ∈ types, t.nullable = false := by
  unfold pseudoType? at h
  split at h <;> cases h <;> simp [builtin, null]

theorem nullable_convertName (ctx : TypeContext) (name : String) :
    ∀ t ∈ ctx.convertName name, t.nullable = false := by
  unfold convertName
  cases hpseudo : pseudoType? (Text.lower name) with
  | some types =>
    simp only [hpseudo]
    exact nullable_pseudoType? hpseudo
  | none =>
    simp only [hpseudo]
    split
    case h_11 => split_ifs <;> simp [builtin, object]
    all_goals simp [object, TypeRef.array, TypeRef.callable]

theorem nullable_convertGeneric (ctx : TypeContext) (base : String)
    (params : List (List TypeRef)) :
    ∀ t ∈ ctx.convertGeneric base params, t.nullable = false := by
  unfold convertGeneric
  split
  dsimp only
  split
  case h_7 =>
    split_ifs
    · exact nullable_convertName ctx base
    · simp [builtin]
    · simp [objectCollection, object]
  all_goals simp [TypeRef.array, builtin, builtinCollection]

/-- No alternative is nullable on its own: nullability comes from what stands around it. -/
theorem nullable_convert (ctx : TypeContext) {a : TypeExpr} (h : a.isAlternative = true) :
    ∀ t ∈ ctx.convert a, t.nullable = false := by
  cases a with
  | nullable | union | inter | conditional => cases h
  | name text =>
    rw [convert]
    exact nullable_convertName ctx text
  | generic base params =>
    rw [convert]
    exact nullable_convertGeneric ctx base _
  | array element => simp [convert, TypeRef.array]
  | shape base fields =>
    rw [convert, List.forall_mem_singleton]
    unfold convertShape
    split <;> rfl
  | callable base params result =>
    rw [convert]
    split <;> simp [object, TypeRef.callable]
  | literal lit => cases lit <;> simp [convert, builtin]

theorem hasForm_iff_mem {types : List TypeRef} (hplain : ∀ u ∈ types, u.nullable = false)
    {t : TypeRef} :
    HasForm types t ↔ t ∈ types ∧ t.isNull = false := by
  constructor
  · rintro ⟨u, hu, hnull, rfl⟩
    rw [withNullable_eq_self (hplain u hu)]
    exact ⟨hu, hnull⟩
  · rintro ⟨ht, hnull⟩
    exact ⟨t, ht, hnull, withNullable_eq_self (hplain t ht)⟩

mutual

/-- **The types that a type comes to** are, up to nullability, those that its alternatives come
to. -/
theorem hasForm_convert_iff {t : TypeRef} : ∀ type : TypeExpr, HasForm (ctx.convert type) t ↔
    ∃ a ∈ type.alternatives, t ∈ ctx.convert a ∧ t.isNull = false
  | .nullable inner => by
    rw [convert, hasForm_compress, hasForm_append, or_iff_left not_hasForm_null, alternatives,
      hasForm_convert_iff inner]
  | .union members | .inter members => by
    rw [convert, alternatives, hasForm_convertAll_iff members]
  | .conditional yes no => by
    rw [convert, hasForm_append, alternatives, hasForm_convert_iff yes, hasForm_convert_iff no]
    simp only [List.mem_append, or_and_right, exists_or]
  | .name _ | .array _ | .generic _ _ | .shape _ _ | .callable _ _ _ | .literal _ => by
    rw [(alternatives_eq_self rfl).1, hasForm_iff_mem (nullable_convert ctx rfl)]
    simp only [List.mem_singleton, exists_eq_left]

theorem hasForm_convertAll_iff {t : TypeRef} :
    ∀ members : List TypeExpr, HasForm (ctx.convertAll members) t ↔
    ∃ a ∈ alternativesOf members, t ∈ ctx.convert a ∧ t.isNull = false
  | [] => by simp [convertAll, alternativesOf, HasForm]
  | m :: ms => by
    rw [convertAll, hasForm_append, alternativesOf, hasForm_convert_iff m,
      hasForm_convertAll_iff ms]
    simp only [List.mem_append, or_and_right, exists_or]

end

/-! ## Native lists have each type once -/

theorem not_mem_concretes_null (types : List TypeRef) : null ∉ concretes types := by
  intro hmem
  cases (mem_concretes.mp hmem).2

theorem nodup_compress_native (types : List TypeRef) : (compress .native types).Nodup := by
  unfold compress
  split
  · split
    · exact List.nodup_singleton _
    · exact List.nodup_singleton _
    · contradiction
    · exact (nodup_concretes types).append (List.nodup_singleton _)
        (List.disjoint_singleton.mpr (not_mem_concretes_null types))
  · exact nodup_concretes types

/-! ## The fold of an annotated list -/

/-- There is a `null`, and the first of the other types is not nullable and stands in the list as a
nullable one too. -/
def Folds (types : List TypeRef) : Prop :=
  (∃ t ∈ types, t.isNull = true) ∧
    ∃ t ∈ types.find? (!·.isNull), t.nullable = false ∧ t.withNullable true ∈ types

instance (types : List TypeRef) : Decidable (Folds types) := inferInstanceAs (Decidable (_ ∧ _))

theorem head?_concretes (types : List TypeRef) :
    (concretes types).head? = types.find? (!·.isNull) := by
  have hfind : (concretes types).find? (!·.isNull) = types.find? (!·.isNull) := by
    rw [concretes, find?_foldl_addNew, List.find?_nil, Option.none_or, List.find?_filter]
    simp
  rw [← hfind]
  cases hconcretes : concretes types with
  | nil => rfl
  | cons t rest =>
    have ht : t.isNull = false := (mem_concretes.mp (hconcretes ▸ List.mem_cons_self)).2
    simp [ht]

theorem compress_annotated_of_null {types : List TypeRef} (h : types.any (·.isNull) = true) :
    compress .annotated types = match concretes types with
      | [] => [null]
      | t :: rest => t.withNullable true :: rest := by
  unfold compress
  rw [if_pos h]
  rcases concretes types with _ | ⟨t, _ | ⟨u, rest⟩⟩ <;> rfl

theorem folds_iff_mem {types : List TypeRef} {t : TypeRef} {rest : List TypeRef}
    (hnull : types.any (·.isNull) = true) (h : concretes types = t :: rest) :
    Folds types ↔ t.withNullable true ∈ rest := by
  have hfirst : types.find? (!·.isNull) = some t := by rw [← head?_concretes, h, List.head?_cons]
  have hnew : t ∉ rest := (List.nodup_cons.mp (h ▸ nodup_concretes types)).1
  have ht : t.isNull = false := (mem_concretes.mp (h ▸ List.mem_cons_self)).2
  have hmem : t.withNullable true ∈ types ↔ t.withNullable true = t ∨
      t.withNullable true ∈ rest := by
    rw [← List.mem_cons, ← h, mem_concretes]
    exact (and_iff_left ht).symm
  have hsome : ∃ u ∈ types, u.isNull = true := by simpa using hnull
  rw [Folds, and_iff_right hsome, hfirst]
  simp only [Option.mem_some_iff, exists_eq_left', hmem]
  cases hnullable : t.nullable with
  | false =>
    -- the nullable form is another type than the first
    have hother : t.withNullable true ≠ t := fun heq => by
      rw [← heq] at hnullable
      cases hnullable
    simp [hother]
  | true =>
    simp [withNullable_eq_self hnullable, hnew]

theorem nodup_compress_annotated_iff (types : List TypeRef) :
    (compress .annotated types).Nodup ↔ ¬ Folds types := by
  by_cases hnull : types.any (·.isNull) = true
  · rw [compress_annotated_of_null hnull]
    cases hconcretes : concretes types with
    | nil =>
      have hnone : types.find? (!·.isNull) = none := by
        rw [← head?_concretes, hconcretes, List.head?_nil]
      simp [Folds, hnone]
    | cons t rest =>
      have hrest : rest.Nodup := (List.nodup_cons.mp (hconcretes ▸ nodup_concretes types)).2
      rw [folds_iff_mem hnull hconcretes]
      exact List.nodup_cons.trans (and_iff_left hrest)
  · have hnone : ¬ ∃ t ∈ types, t.isNull = true := by simpa using hnull
    unfold compress
    rw [if_neg hnull]
    exact iff_of_true (nodup_concretes types) fun h => hnone h.1

/-! ## Native classes with parameters from an annotation -/

/-- Two native classes of one name and nullability, and a generic class of that name that both
become. -/
def Merges (offered declared : List TypeRef) : Prop :=
  ∃ t ∈ declared, ∃ u ∈ declared, t ≠ u ∧ t.kind = .object ∧ u.kind = .object ∧
    t.nullable = u.nullable ∧
    Text.sameName t.name u.name = true ∧ ∃ g ∈ offered, Text.sameName g.name t.name = true

instance (offered declared : List TypeRef) : Decidable (Merges offered declared) :=
  inferInstanceAs (Decidable (∃ t ∈ declared, ∃ u ∈ declared, _))

mutual

theorem kind_of_mem_generics : ∀ (type : TypeExpr), ∀ g ∈ ctx.generics type, g.kind = .object
  | .generic base params => by
    rw [generics]
    split
    · simp [genericClass, objectCollection, object]
    · simp
  | .nullable inner => by
    rw [generics]
    exact kind_of_mem_generics inner
  | .union members | .inter members => by
    rw [generics]
    exact kind_of_mem_genericsAll members
  | .conditional yes no => by
    rw [generics, List.forall_mem_append]
    exact ⟨kind_of_mem_generics yes, kind_of_mem_generics no⟩
  | .name _ | .array _ | .shape _ _ | .callable _ _ _ | .literal _ => by simp [generics]

theorem kind_of_mem_genericsAll :
    ∀ (members : List TypeExpr), ∀ g ∈ ctx.genericsAll members, g.kind = .object
  | [] => by simp [genericsAll]
  | t :: ts => by
    rw [genericsAll, List.forall_mem_append]
    exact ⟨kind_of_mem_generics t, kind_of_mem_genericsAll ts⟩

end

/-- Without a generic class of its name a type is left as it is. -/
theorem parametrise_eq_self {offered : List TypeRef} {t : TypeRef}
    (h : ¬ (t.kind = .object ∧ ∃ g ∈ offered, Text.sameName g.name t.name = true)) :
    parametrise offered t = t := by
  unfold parametrise
  split
  · rename_i hkind
    have hnone : offered.find? (Text.sameName ·.name t.name) = none := by
      rw [List.find?_eq_none]
      exact fun g hg hsame => h ⟨hkind, g, hg, hsame⟩
    rw [hnone]
  · rfl

/-- Parameters change neither what a type is nor whether it is nullable, and its name in letter
case only. -/
theorem parametrise_keeps {offered : List TypeRef} (hkind : ∀ g ∈ offered, g.kind = .object)
    (t : TypeRef) :
    (parametrise offered t).kind = t.kind ∧ (parametrise offered t).nullable = t.nullable ∧
      Text.lower (parametrise offered t).name = Text.lower t.name := by
  unfold parametrise
  split
  · rename_i hclass
    split
    · rename_i g hfind
      have hsame : Text.sameName g.name t.name = true := by simpa using List.find?_some hfind
      exact ⟨(hkind g (List.mem_of_find?_eq_some hfind)).trans hclass.symm, rfl,
        (Text.sameName_iff _ _).mp hsame⟩
    · exact ⟨rfl, rfl, rfl⟩
  · exact ⟨rfl, rfl, rfl⟩

/-- Two types of one list come out equal exactly if both are classes of one name that the
annotation gives parameters to. -/
theorem parametrise_eq_iff {offered : List TypeRef} (hkind : ∀ g ∈ offered, g.kind = .object)
    {t u : TypeRef} (hne : t ≠ u) : parametrise offered t = parametrise offered u ↔
      t.kind = .object ∧ u.kind = .object ∧ t.nullable = u.nullable ∧
        Text.sameName t.name u.name = true ∧
        ∃ g ∈ offered, Text.sameName g.name t.name = true := by
  constructor
  · intro heq
    obtain ⟨hkindT, hnullT, hnameT⟩ := parametrise_keeps hkind t
    obtain ⟨hkindU, hnullU, hnameU⟩ := parametrise_keeps hkind u
    rw [heq] at hkindT hnullT hnameT
    have hkinds : t.kind = u.kind := hkindT.symm.trans hkindU
    have hnames : Text.lower t.name = Text.lower u.name := hnameT.symm.trans hnameU
    have hsame : ∀ g : TypeRef, Text.sameName g.name t.name = Text.sameName g.name u.name := by
      intro g
      simp only [Text.sameName, hnames]
    by_cases hoffered : t.kind = .object ∧ ∃ g ∈ offered, Text.sameName g.name t.name = true
    · obtain ⟨hclass, hgeneric⟩ := hoffered
      exact ⟨hclass, hkinds ▸ hclass, hnullT.symm.trans hnullU,
        (Text.sameName_iff _ _).mpr hnames, hgeneric⟩
    · -- both would be left as they are
      have hofferedU :
          ¬ (u.kind = .object ∧ ∃ g ∈ offered, Text.sameName g.name u.name = true) := by
        simpa only [hkinds, hsame] using hoffered
      rw [parametrise_eq_self hoffered, parametrise_eq_self hofferedU] at heq
      exact absurd heq hne
  · rintro ⟨hclassT, hclassU, hnull, hsame, g, hg, hgeneric⟩
    have hnames : Text.lower t.name = Text.lower u.name := (Text.sameName_iff _ _).mp hsame
    have hfinds : offered.find? (Text.sameName ·.name t.name) =
        offered.find? (Text.sameName ·.name u.name) := by
      simp only [Text.sameName, hnames]
    have hsome : (offered.find? (Text.sameName ·.name t.name)).isSome = true :=
      List.find?_isSome.mpr ⟨g, hg, hgeneric⟩
    obtain ⟨found, hfound⟩ := Option.isSome_iff_exists.mp hsome
    rw [parametrise, parametrise, if_pos hclassT, if_pos hclassU, ← hfinds, hfound, hnull]

theorem nodup_map_parametrise_iff {offered declared : List TypeRef}
    (hkind : ∀ g ∈ offered, g.kind = .object) (hdeclared : declared.Nodup) :
    (declared.map (parametrise offered)).Nodup ↔ ¬ Merges offered declared := by
  rw [List.nodup_map_iff_inj_on hdeclared]
  constructor
  · rintro hinj ⟨t, ht, u, hu, hne, hmerge⟩
    exact hne (hinj t ht u hu ((parametrise_eq_iff hkind hne).mpr hmerge))
  · intro hnone t ht u hu heq
    by_contra hne
    exact hnone ⟨t, ht, u, hu, hne, (parametrise_eq_iff hkind hne).mp heq⟩

theorem nodup_unify_native (ctx : TypeContext) (native : Option TypeExpr) :
    (ctx.unify none native).1.types.Nodup := by
  cases native with
  | none => exact List.nodup_nil
  | some declared => exact nodup_compress_native _

theorem tagValue_of_type? {tag : Option Tag} {type : TypeExpr}
    (h : tag.bind Tag.type? = some type) :
    tag.map Tag.value = some (.typed type) := by
  obtain ⟨tag, rfl, htype⟩ := Option.bind_eq_some_iff.mp h
  unfold Tag.type? at htype
  split at htype
  · rename_i hvalue
    rw [Option.map_some, hvalue, Option.some.inj htype]
  · cases htype

theorem unify_of_untyped {tag : Option Tag} (h : tag.bind Tag.type? = none)
    (native : Option TypeExpr) :
    (ctx.unify tag native).1 = (ctx.unify none native).1 := by
  unfold unify
  cases tag with
  | none => rfl
  | some tag =>
    have htype : tag.type? = none := h
    unfold Tag.type? at htype
    cases hvalue : tag.value with
    | typed type => simp [hvalue] at htype
    | malformed raw cause => simp [hvalue]
    | untyped => simp [hvalue]

/-- What a readable annotation makes of a member's type. -/
theorem unify_of_typed {tag : Option Tag} {type : TypeExpr} (h : tag.bind Tag.type? = some type)
    (native : Option TypeExpr) :
    let declared := (ctx.unify none native).1.types
    (ctx.unify tag native).1.types =
      if ctx.NamesGenericClass type ∧ ∃ t ∈ declared, t.kind = .object then
        declared.map (parametrise (ctx.generics type))
      else (ctx.unifyAnnotated type).1.types := by
  dsimp only
  unfold unify
  rw [tagValue_of_type? h]
  cases native with
  | none => simp
  | some declared =>
    simp only [Option.map_some, Option.getD_some, Option.map_none, namesGeneric_iff,
      refineNative_eq]
    by_cases hgeneric : ctx.NamesGenericClass type
    · simp only [hgeneric, true_and, if_true]
      split <;> rfl
    · simp [hgeneric]

/-- **When no type is listed twice.** A native list has each type once. An annotated list has a
type twice exactly if a `null` is folded into a type that stands behind it as a nullable one, and a
native list with parameters from an annotation exactly if two of its classes have one name and take
the same parameters. -/
theorem nodup_unify_iff (ctx : TypeContext) (tag : Option Tag) (native : Option TypeExpr) :
    (ctx.unify tag native).1.types.Nodup ↔
      match tag.bind Tag.type? with
      | none => True
      | some type =>
        let declared := (ctx.unify none native).1.types
        if ctx.NamesGenericClass type ∧
          ∃ t ∈ declared, t.kind = .object then ¬ Merges (ctx.generics type) declared
        else ¬ Folds (ctx.convert type) := by
  have hnative := nodup_unify_native ctx native
  cases htag : tag.bind Tag.type? with
  | none =>
    rw [unify_of_untyped htag]
    exact iff_of_true hnative trivial
  | some type =>
    rw [unify_of_typed htag]
    dsimp only
    split
    · exact nodup_map_parametrise_iff (kind_of_mem_generics type) hnative
    · exact nodup_compress_annotated_iff _

/-- `int|?int|null` lists `?int` twice, and there is no native type. -/
theorem not_nodup_unify_marked :
    let ctx : TypeContext := { scope := {}, root := "Book", owner := "Book::$x" }
    let type : TypeExpr := .union [.name "int", .nullable (.name "int"), .name "null"]
    let tag : Tag :=
      { kind := .var, forAnalyser := false, value := .typed type, subject := none, text := "" }
    ¬ (ctx.unify (some tag) none).1.types.Nodup := by
  decide

/-! ## What an explicit `?` reports -/

/-- There are two different types other than `null`. -/
def Several (types : List TypeRef) : Prop :=
  ∃ t ∈ types, ∃ u ∈ types, t ≠ u ∧ t.isNull = false ∧ u.isNull = false

instance (types : List TypeRef) : Decidable (Several types) :=
  inferInstanceAs (Decidable (∃ t ∈ types, ∃ u ∈ types, _))

theorem not_several_singleton (t : TypeRef) : ¬ Several [t] := by
  rintro ⟨u, hu, v, hv, hne, -⟩
  exact hne ((List.mem_singleton.mp hu).trans (List.mem_singleton.mp hv).symm)

/-- Dropping `null` and repetitions leaves two different types where there are two. -/
theorem several_concretes (types : List TypeRef) : Several (concretes types) ↔ Several types := by
  constructor
  · rintro ⟨t, ht, u, hu, hrest⟩
    exact ⟨t, (mem_concretes.mp ht).1, u, (mem_concretes.mp hu).1, hrest⟩
  · rintro ⟨t, ht, u, hu, hne, hnullT, hnullU⟩
    exact ⟨t, mem_concretes.mpr ⟨ht, hnullT⟩, u, mem_concretes.mpr ⟨hu, hnullU⟩, hne,
      hnullT, hnullU⟩

theorem isSome_absorber?_iff (types : List TypeRef) :
    (absorber? types).isSome = true ↔ (∃ t ∈ types, t.isNull = true) ∧ Several types := by
  have hnodup := nodup_concretes types
  have hother : ∀ t ∈ concretes types, t.isNull = false := fun t ht => (mem_concretes.mp ht).2
  rw [← several_concretes types]
  unfold absorber?
  split
  · rename_i hnull
    have hnull : ∃ t ∈ types, t.isNull = true := by simpa using hnull
    rw [and_iff_right hnull]
    split
    · rename_i t u rest hconcretes
      rw [hconcretes] at hnodup hother ⊢
      have hne : t ≠ u := fun heq => (List.nodup_cons.mp hnodup).1 (heq ▸ List.mem_cons_self)
      exact iff_of_true rfl ⟨t, by simp, u, by simp, hne, hother t (by simp), hother u (by simp)⟩
    · -- at most one type is left, so that no two differ
      rename_i hfew
      refine iff_of_false (by simp) ?_
      rcases hconcretes : concretes types with _ | ⟨t, _ | ⟨u, rest⟩⟩
      · simp [Several]
      · exact not_several_singleton t
      · exact absurd hconcretes (hfew t u rest)
  · rename_i hnull
    have hnull : ¬ ∃ t ∈ types, t.isNull = true := by simpa using hnull
    exact iff_of_false (by simp) fun h => hnull h.1

/-- **A `?T` is reported** exactly if `T` comes to several types: its own `null` stays in the list
then. -/
theorem absorber?_nullable (ctx : TypeContext) (type : TypeExpr) :
    (absorber? (ctx.convert (.nullable type))).isSome = true ↔ Several (ctx.convert type) := by
  have hnull : ∃ t ∈ ctx.convert type ++ [null], t.isNull = true := ⟨null, by simp, rfl⟩
  rw [convert, (alike_compress _).absorber, isSome_absorber?_iff, and_iff_right hnull,
    ← several_concretes, concretes_append_null, several_concretes]

/-- The types other than `null` that the alternatives of a type come to. -/
def typesOf (ctx : TypeContext) (type : TypeExpr) : List TypeRef :=
  (type.alternatives.flatMap ctx.convert).filter (!·.isNull)

theorem mem_typesOf {type : TypeExpr} {t : TypeRef} :
    t ∈ ctx.typesOf type ↔ HasForm (ctx.convert type) t := by
  rw [hasForm_convert_iff, typesOf, List.mem_filter, List.mem_flatMap]
  simp [and_assoc, ← exists_and_right]

/-- Two types that differ in nullability only. -/
theorem eq_withNullable_of_form {t u : TypeRef} (hne : t ≠ u)
    (hform : t.withNullable false = u.withNullable false) (ht : t.nullable = false) :
    u = t.withNullable true := by
  have hsame : t.withNullable u.nullable = u := by
    have hset : (t.withNullable false).withNullable u.nullable =
        (u.withNullable false).withNullable u.nullable := by
      rw [hform]
    exact hset.trans (withNullable_eq_self (t := u) rfl)
  cases hu : u.nullable with
  | true => rw [← hu, hsame]
  | false =>
    rw [hu, withNullable_eq_self ht] at hsame
    exact absurd hsame hne

/-- A list has several types if two are different but for nullability, or if one is there in both
forms. -/
theorem several_iff (types : List TypeRef) : Several types ↔
    (∃ t, HasForm types t ∧ ∃ u, HasForm types u ∧ t ≠ u) ∨
      ∃ t ∈ types, t.isNull = false ∧ t.nullable = false ∧ t.withNullable true ∈ types := by
  constructor
  · rintro ⟨t, ht, u, hu, hne, hnullT, hnullU⟩
    by_cases hform : t.withNullable false = u.withNullable false
    · refine .inr ?_
      cases hnullable : t.nullable with
      | false => exact ⟨t, ht, hnullT, hnullable, eq_withNullable_of_form hne hform hnullable ▸ hu⟩
      | true =>
        have hother : u.nullable = false := by
          by_contra hboth
          rw [Bool.not_eq_false] at hboth
          have heq := congrArg (·.withNullable true) hform
          exact hne
            (((withNullable_eq_self hnullable).symm.trans heq).trans (withNullable_eq_self hboth))
        exact ⟨u, hu, hnullU, hother, eq_withNullable_of_form (Ne.symm hne) hform.symm hother ▸ ht⟩
    · exact .inl ⟨_, ⟨t, ht, hnullT, rfl⟩, _, ⟨u, hu, hnullU, rfl⟩, hform⟩
  · rintro (⟨_, ⟨t, ht, hnullT, rfl⟩, _, ⟨u, hu, hnullU, rfl⟩, hne⟩
      | ⟨t, ht, hnull, hplain, hmarked⟩)
    · exact ⟨t, ht, u, hu, fun heq => hne (heq ▸ rfl), hnullT, hnullU⟩
    · refine ⟨t, ht, _, hmarked, fun heq => ?_, hnull, hnull⟩
      rw [heq] at hplain
      cases hplain

mutual

/-- Only behind a `?` does a type become nullable. -/
theorem hasMark_of_nullable {t : TypeRef} (hnullable : t.nullable = true) : ∀ type : TypeExpr,
    t ∈ ctx.convert type → type.hasMark = true
  | .nullable inner => by
    intro _
    rw [hasMark]
  | .union members | .inter members => by
    rw [convert, hasMark]
    exact anyHasMark_of_nullable hnullable members
  | .conditional yes no => by
    rw [convert, hasMark, List.mem_append, Bool.or_eq_true]
    exact Or.imp (hasMark_of_nullable hnullable yes) (hasMark_of_nullable hnullable no)
  | .name _ | .array _ | .generic _ _ | .shape _ _ | .callable _ _ _ | .literal _ => by
    intro ht
    rw [nullable_convert ctx (by rfl) t ht] at hnullable
    cases hnullable

theorem anyHasMark_of_nullable {t : TypeRef} (hnullable : t.nullable = true) :
    ∀ members : List TypeExpr,
    t ∈ ctx.convertAll members → anyHasMark members = true
  | [] => by simp [convertAll]
  | m :: ms => by
    rw [convertAll, anyHasMark, List.mem_append, Bool.or_eq_true]
    exact Or.imp (hasMark_of_nullable hnullable m) (anyHasMark_of_nullable hnullable ms)

end

/-! ## Words for several types -/

theorem several_pseudoType?_iff {keyword : String} {types : List TypeRef}
    (h : pseudoType? keyword = some types) :
    Several types ↔ ["scalar", "number", "numeric", "array-key"].contains keyword = true := by
  unfold pseudoType? at h
  split at h <;> cases h <;> decide

theorem not_contains_of_pseudoType? {keyword : String} (h : pseudoType? keyword = none) :
    ["scalar", "number", "numeric", "array-key"].contains keyword = false := by
  by_contra hmem
  rw [Bool.not_eq_false, List.contains_iff_mem] at hmem
  simp only [List.mem_cons, List.not_mem_nil, or_false] at hmem
  rcases hmem with rfl | rfl | rfl | rfl <;> cases h

theorem several_convertName_iff (ctx : TypeContext) (name : String) :
    Several (ctx.convertName name) ↔ (TypeExpr.name name).saysSeveral = true := by
  unfold convertName
  cases hpseudo : pseudoType? (Text.lower name) with
  | some types =>
    simp only [hpseudo]
    exact several_pseudoType?_iff hpseudo
  | none =>
    have hword : (TypeExpr.name name).saysSeveral = false := not_contains_of_pseudoType? hpseudo
    simp only [hpseudo]
    refine iff_of_false ?_ (by simp [hword])
    split
    case h_4 =>
      cases ctx.parent with
      | none => simp [Several]
      | some parent => exact not_several_singleton _
    case h_11 => split_ifs <;> exact not_several_singleton _
    all_goals exact not_several_singleton _

theorem several_convertGeneric_iff (ctx : TypeContext) (base : String) (params : List TypeExpr)
    (types : List (List TypeRef)) :
    Several (ctx.convertGeneric base types) ↔
      (TypeExpr.generic base params).saysSeveral = true := by
  unfold convertGeneric
  split
  dsimp only
  split
  case h_7 =>
    split_ifs with hkeyword
    · exact several_convertName_iff ctx base
    all_goals
      have hpseudo : pseudoType? (Text.lower base) = none := by simp_all
      have hword : (TypeExpr.generic base params).saysSeveral = false :=
        not_contains_of_pseudoType? hpseudo
      exact iff_of_false (not_several_singleton _) (by simp [hword])
  all_goals
    rename_i heq
    refine iff_of_false (not_several_singleton _) ?_
    simp [saysSeveral, heq]

/-- An alternative stands for several types exactly if it is one of the words for several
builtins. -/
theorem several_convert_iff (ctx : TypeContext) {a : TypeExpr} (h : a.isAlternative = true) :
    Several (ctx.convert a) ↔ a.saysSeveral = true := by
  cases a with
  | nullable | union | inter | conditional => cases h
  | name text =>
    rw [convert]
    exact several_convertName_iff ctx text
  | generic base params =>
    rw [convert]
    exact several_convertGeneric_iff ctx base params _
  | array element =>
    rw [convert]
    exact iff_of_false (not_several_singleton _) (by simp [saysSeveral])
  | shape base fields =>
    rw [convert]
    exact iff_of_false (not_several_singleton _) (by simp [saysSeveral])
  | callable base params result =>
    rw [convert]
    split <;> exact iff_of_false (not_several_singleton _) (by simp [saysSeveral])
  | literal lit =>
    cases lit <;>
      (rw [convert]; exact iff_of_false (not_several_singleton _) (by simp [saysSeveral]))

theorem ambiguous_iff (ctx : TypeContext) (type : TypeExpr) :
    (∃ owner name, Issue.ambiguousType owner name ∈ (ctx.unifyAnnotated type).2) ↔
      (absorber? (ctx.convert type)).isSome = true := by
  unfold unifyAnnotated
  cases habsorber : absorber? (ctx.convert type) <;> simp [habsorber]

/-- **When an explicit `?` is reported as ambiguous.** `?T` is reported exactly if the alternatives
of `T` come to two different types, or if one type stands in `T` both as it is and behind a `?` of
its own. So of the types without parts those are reported that the words for several builtins stand
for, as in `?number`. -/
theorem ambiguous_nullable_iff (ctx : TypeContext) (type : TypeExpr) :
    let reported := ∃ owner name,
      Issue.ambiguousType owner name ∈ (ctx.unifyAnnotated (.nullable type)).2
    (reported ↔ (∃ t ∈ ctx.typesOf type, ∃ u ∈ ctx.typesOf type, t ≠ u) ∨
      (type.hasMark = true ∧ ∃ t ∈ ctx.typesOf type, t ∈ ctx.convert type ∧
        t.withNullable true ∈ ctx.convert type)) ∧
    (type.isAlternative = true ∧ reported ↔ type.saysSeveral = true) := by
  intro reported
  have hreported : reported ↔ Several (ctx.convert type) :=
    (ambiguous_iff ctx (.nullable type)).trans (absorber?_nullable ctx type)
  refine ⟨?_, ?_⟩
  · rw [hreported, several_iff]
    simp only [mem_typesOf]
    refine or_congr_right ?_
    constructor
    · rintro ⟨t, ht, hnull, hplain, hmarked⟩
      exact ⟨hasMark_of_nullable rfl type hmarked, t,
        ⟨t, ht, hnull, withNullable_eq_self hplain⟩, ht, hmarked⟩
    · rintro ⟨-, _, ⟨u, hu, hnull, rfl⟩, ht, hmarked⟩
      exact ⟨_, ht, hnull, rfl, hmarked⟩
  · rw [hreported]
    constructor
    · rintro ⟨halternative, hseveral⟩
      exact (several_convert_iff ctx halternative).mp hseveral
    · intro hword
      have halternative := isAlternative_of_saysSeveral hword
      exact ⟨halternative, (several_convert_iff ctx halternative).mpr hword⟩

/-- `?(int|string)` has its `null` from the `?` alone, and it is reported. -/
theorem ambiguous_nullable_union :
    let ctx : TypeContext := { scope := {}, root := "Book", owner := "Book::$x" }
    (ctx.unifyAnnotated (.nullable (.union [.name "int", .name "string"]))).2 =
        [.ambiguousType "Book::$x" "int"] := by
  decide

end TypeContext

end ClassDocs

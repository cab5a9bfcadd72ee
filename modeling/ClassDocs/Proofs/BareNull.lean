import ClassDocs.Proofs.Nullability

/-!
# Types that come out as `null` alone

What a type comes to is decided by its alternatives: the types that unions, intersections, `?` and
the outcomes of a condition are made of. A type is documented as nothing but `null` exactly if
every alternative is `null` or `void`, or says nothing at all, and there is a `null` among them or
a `?` around them (`unify_eq_null_iff`).

The words that say nothing are `mixed`, and `parent` in a class without a parent. They leave no
trace in the list of types, so `mixed|null` is documented as `null` although `mixed` admits every
value.
-/

namespace ClassDocs

namespace TypeExpr

/-- Whether a type is an alternative, and not put together from some. -/
def isAlternative : TypeExpr → Bool
  | .nullable _ | .union _ | .inter _ | .conditional _ _ => false
  | _ => true

mutual

/-- The alternatives written in a type. -/
def alternatives : TypeExpr → List TypeExpr
  | .nullable inner => inner.alternatives
  | .union members | .inter members => alternativesOf members
  | .conditional yes no => yes.alternatives ++ no.alternatives
  | t => [t]

/-- The alternatives written in several types. -/
def alternativesOf : List TypeExpr → List TypeExpr
  | [] => []
  | t :: ts => t.alternatives ++ alternativesOf ts

end

mutual

/-- Whether a `?` stands in front of some of the alternatives of a type. -/
def hasMark : TypeExpr → Bool
  | .nullable _ => true
  | .union members | .inter members => anyHasMark members
  | .conditional yes no => yes.hasMark || no.hasMark
  | _ => false

/-- Whether a `?` stands in front of some of the alternatives of several types. -/
def anyHasMark : List TypeExpr → Bool
  | [] => false
  | t :: ts => t.hasMark || anyHasMark ts

end

/-- Whether an alternative is the word `null` or `void`. Type parameters behind it do not count. -/
def saysNull : TypeExpr → Bool
  | .name text | .generic text _ => Text.lower text == "null" || Text.lower text == "void"
  | _ => false

theorem alternatives_eq_self {t : TypeExpr} (h : t.isAlternative = true) :
    t.alternatives = [t] ∧ t.hasMark = false := by
  cases t with
  | nullable | union | inter | conditional => cases h
  | name | array | generic | shape | callable | literal => simp [alternatives, hasMark]

end TypeExpr

namespace TypeContext

open TypeRef TypeExpr

variable {ctx : TypeContext}

/-- Whether an alternative leaves no trace in the list of types: it is `mixed`, or `parent` where
there is none. -/
def saysNothing (ctx : TypeContext) : TypeExpr → Bool
  | .name text => Text.lower text == "mixed" || (Text.lower text == "parent" && ctx.parent.isNone)
  | .generic base _ => Text.lower base == "mixed"
  | _ => false

/-! ## Lists with nothing but `null` -/

/-- There is no type but `null`. -/
def OnlyNull (types : List TypeRef) : Prop := ∀ t ∈ types, t.isNull = true

theorem concretes_eq_nil_iff {types : List TypeRef} : concretes types = [] ↔ OnlyNull types := by
  rw [List.eq_nil_iff_forall_not_mem]
  refine forall_congr' fun t => ?_
  rw [mem_concretes]
  simp

theorem onlyNull_append {types types' : List TypeRef} :
    OnlyNull (types ++ types') ↔ OnlyNull types ∧ OnlyNull types' := List.forall_mem_append

theorem onlyNull_null : OnlyNull [null] := List.forall_mem_singleton.mpr rfl

/-- Compressing a list leaves a type other than `null` in it, if there is one. -/
theorem exists_of_compress (source : Source) {types : List TypeRef} {t : TypeRef} (ht : t ∈ types)
    (hnull : t.isNull = false) : ∃ u ∈ compress source types, u.isNull = false := by
  have hmem : t ∈ concretes types := mem_concretes.mpr ⟨ht, hnull⟩
  have hconcrete : ∀ {u}, u ∈ concretes types → u.isNull = false :=
    fun hu => (mem_concretes.mp hu).2
  unfold compress
  split
  · split
    · rename_i hnone
      simp [hnone] at hmem
    · rename_i u hone
      exact ⟨u.withNullable true, List.mem_cons_self, hconcrete (u := u) (by simp [hone])⟩
    · rename_i u rest _ hfirst
      exact ⟨u.withNullable true, List.mem_cons_self, hconcrete (u := u) (by simp [hfirst])⟩
    · exact ⟨t, List.mem_append_left _ hmem, hnull⟩
  · exact ⟨t, hmem, hnull⟩

theorem compress_of_onlyNull (source : Source) {types : List TypeRef} (h : OnlyNull types)
    (hne : types ≠ []) :
    compress source types = [null] := by
  obtain ⟨t, rest, rfl⟩ := List.exists_cons_of_ne_nil hne
  have hany : (t :: rest).any (·.isNull) = true := by simp [h t List.mem_cons_self]
  unfold compress
  rw [if_pos hany, concretes_eq_nil_iff.mpr h]

theorem compress_ne_nil (source : Source) {types : List TypeRef} (hne : types ≠ []) :
    compress source types ≠ [] := by
  by_cases honly : OnlyNull types
  · simp [compress_of_onlyNull source honly hne]
  · obtain ⟨t, ht, hnull⟩ : ∃ t ∈ types, t.isNull = false := by simpa [OnlyNull] using honly
    obtain ⟨u, hu, -⟩ := exists_of_compress source ht hnull
    exact List.ne_nil_of_mem hu

theorem onlyNull_compress (source : Source) {types : List TypeRef} :
    OnlyNull (compress source types) ↔ OnlyNull types := by
  constructor
  · intro honly t ht
    by_contra hnull
    obtain ⟨u, hu, hother⟩ := exists_of_compress source ht (by simpa using hnull)
    rw [honly u hu] at hother
    cases hother
  · intro honly
    by_cases hne : types = []
    · rw [hne]
      exact fun t ht => by cases ht
    · rw [compress_of_onlyNull source honly hne]
      exact onlyNull_null

/-- Whatever the source of a list is, it is compressed to `null` only if there is nothing else. -/
theorem compress_eq_null_iff (source : Source) {types : List TypeRef} :
    compress source types = [null] ↔ OnlyNull types ∧ types ≠ [] := by
  constructor
  · intro h
    refine ⟨?_, ?_⟩
    · rw [← onlyNull_compress source, h]
      exact onlyNull_null
    · rintro rfl
      cases h
  · rintro ⟨honly, hne⟩
    exact compress_of_onlyNull source honly hne

/-! ## Alternatives -/

/-- What an alternative comes to: `null`, nothing, or a list with some other type. -/
inductive ComesTo (ctx : TypeContext) (t : TypeExpr) (types : List TypeRef) : Prop where
  | null : t.saysNull = true → types = [TypeRef.null] → ComesTo ctx t types
  | nothing : ctx.saysNothing t = true → types = [] → ComesTo ctx t types
  | other {u : TypeRef} :
      t.saysNull = false → ctx.saysNothing t = false → u ∈ types → u.isNull = false →
      ComesTo ctx t types

theorem comesTo_pseudoType? (ctx : TypeContext) {name : String} {types : List TypeRef}
    (h : pseudoType? (Text.lower name) = some types) : ctx.ComesTo (.name name) types := by
  unfold pseudoType? at h
  split at h
  case h_17 heq => exact .nothing (by simp [saysNothing, heq]) (Option.some.inj h).symm
  case h_18 heq | h_19 heq => exact .null (by simp [saysNull, heq]) (Option.some.inj h).symm
  case h_20 => cases h
  all_goals
    rename_i heq
    obtain rfl := Option.some.inj h
    exact .other (by simp [saysNull, heq]) (by simp [saysNothing, heq]) List.mem_cons_self rfl

theorem ne_of_pseudoType? {keyword : String} (h : pseudoType? keyword = none) :
    keyword ≠ "null" ∧ keyword ≠ "void" ∧ keyword ≠ "mixed" := by
  refine ⟨?_, ?_, ?_⟩ <;> intro heq <;> rw [heq] at h <;> cases h

theorem comesTo_convertName (ctx : TypeContext) (name : String) :
    ctx.ComesTo (.name name) (ctx.convertName name) := by
  unfold convertName
  cases hpseudo : pseudoType? (Text.lower name) with
  | some types =>
    simp only [hpseudo]
    exact comesTo_pseudoType? ctx hpseudo
  | none =>
    obtain ⟨hnotNull, hnotVoid, hnotMixed⟩ := ne_of_pseudoType? hpseudo
    have hnull : (TypeExpr.name name).saysNull = false := by simp [saysNull, hnotNull, hnotVoid]
    simp only [hpseudo]
    split
    case h_4 heq =>
      cases hparent : ctx.parent with
      | none => exact .nothing (by simp [saysNothing, heq, hparent]) rfl
      | some parent =>
        exact .other hnull (by simp [saysNothing, heq, hparent]) List.mem_cons_self rfl
    case h_11 hparent _ _ _ _ _ _ =>
      have hparent : Text.lower name ≠ "parent" := hparent
      have hnothing : ctx.saysNothing (.name name) = false := by
        simp [saysNothing, hnotMixed, hparent]
      split_ifs <;> exact .other hnull hnothing List.mem_cons_self rfl
    all_goals
      rename_i heq
      exact .other hnull (by simp [saysNothing, heq]) List.mem_cons_self rfl

theorem comesTo_convertGeneric (ctx : TypeContext) (base : String) (params : List TypeExpr)
    (types : List (List TypeRef)) :
    ctx.ComesTo (.generic base params) (ctx.convertGeneric base types) := by
  unfold convertGeneric
  split
  dsimp only
  split
  case h_7 =>
    split_ifs with hkeyword htemplate
    · -- a keyword is what it is without its parameters, and `parent` is no keyword
      have hparent : Text.lower base ≠ "parent" := fun heq => by
        rw [heq] at hkeyword
        revert hkeyword
        decide
      cases comesTo_convertName ctx base with
      | null hsaid htypes => exact .null hsaid htypes
      | nothing hsaid htypes => exact .nothing (by simpa [saysNothing, hparent] using hsaid) htypes
      | other hnull hnothing hmem hother =>
        exact .other hnull (by simp_all [saysNothing]) hmem hother
    all_goals
      have hpseudo : pseudoType? (Text.lower base) = none := by simp_all
      obtain ⟨hnotNull, hnotVoid, hnotMixed⟩ := ne_of_pseudoType? hpseudo
      exact .other (by simp [saysNull, hnotNull, hnotVoid]) (by simp [saysNothing, hnotMixed])
        List.mem_cons_self rfl
  all_goals
    rename_i heq
    exact .other (by simp [saysNull, heq]) (by simp [saysNothing, heq]) List.mem_cons_self rfl

theorem comesTo_convert (ctx : TypeContext) {t : TypeExpr} (h : t.isAlternative = true) :
    ctx.ComesTo t (ctx.convert t) := by
  cases t with
  | nullable | union | inter | conditional => cases h
  | name text =>
    rw [convert]
    exact comesTo_convertName ctx text
  | generic base params =>
    rw [convert]
    exact comesTo_convertGeneric ctx base params _
  | array element =>
    rw [convert]
    exact .other rfl rfl List.mem_cons_self rfl
  | shape base fields =>
    rw [convert]
    refine .other rfl rfl List.mem_cons_self ?_
    unfold convertShape
    split <;> rfl
  | callable base params result =>
    rw [convert]
    split <;> exact .other rfl rfl List.mem_cons_self rfl
  | literal lit => cases lit <;> (rw [convert]; exact .other rfl rfl List.mem_cons_self rfl)

theorem not_saysNothing_of_saysNull (ctx : TypeContext) {t : TypeExpr} (h : t.saysNull = true) :
    ctx.saysNothing t = false := by
  cases t with
  | name text | generic text params =>
    rcases (Bool.or_eq_true _ _).mp h with hword | hword <;>
      simp [saysNothing, beq_iff_eq.mp hword]
  | nullable | union | inter | conditional | array | shape | callable | literal => rfl

theorem ComesTo.onlyNull_iff {t : TypeExpr} {types : List TypeRef} (h : ctx.ComesTo t types) :
    OnlyNull types ↔ t.saysNull = true ∨ ctx.saysNothing t = true := by
  cases h with
  | null hsaid htypes => simp [OnlyNull, hsaid, htypes, isNull, TypeRef.null]
  | nothing hsaid htypes => simp [OnlyNull, hsaid, htypes]
  | other hnull hnothing hmem hother =>
    refine iff_of_false (fun honly => ?_) (by simp [hnull, hnothing])
    rw [honly _ hmem] at hother
    cases hother

theorem ComesTo.eq_nil_iff {t : TypeExpr} {types : List TypeRef} (h : ctx.ComesTo t types) :
    types = [] ↔ ctx.saysNothing t = true := by
  cases h with
  | null hsaid htypes => simp [htypes, not_saysNothing_of_saysNull ctx hsaid]
  | nothing hsaid htypes => simp [hsaid, htypes]
  | other hnull hnothing hmem hother => simp [hnothing, List.ne_nil_of_mem hmem]

/-! ## Types put together from alternatives -/

mutual

theorem onlyNull_convert_iff : ∀ type : TypeExpr, OnlyNull (ctx.convert type) ↔
    ∀ t ∈ type.alternatives, t.saysNull = true ∨ ctx.saysNothing t = true
  | .nullable inner => by
    rw [convert, onlyNull_compress, onlyNull_append, alternatives, onlyNull_convert_iff inner]
    exact and_iff_left onlyNull_null
  | .union members | .inter members => by
    rw [convert, alternatives, onlyNull_convertAll_iff members]
  | .conditional yes no => by
    rw [convert, onlyNull_append, alternatives, List.forall_mem_append, onlyNull_convert_iff yes,
      onlyNull_convert_iff no]
  | .name _ | .array _ | .generic _ _ | .shape _ _ | .callable _ _ _ | .literal _ => by
    rw [(alternatives_eq_self rfl).1, List.forall_mem_singleton]
    exact (comesTo_convert ctx rfl).onlyNull_iff

theorem onlyNull_convertAll_iff : ∀ members : List TypeExpr, OnlyNull (ctx.convertAll members) ↔
    ∀ t ∈ alternativesOf members, t.saysNull = true ∨ ctx.saysNothing t = true
  | [] => by simp [convertAll, alternativesOf, OnlyNull]
  | t :: ts => by
    rw [convertAll, onlyNull_append, alternativesOf, List.forall_mem_append,
      onlyNull_convert_iff t, onlyNull_convertAll_iff ts]

end

mutual

theorem convert_eq_nil_iff : ∀ type : TypeExpr, ctx.convert type = [] ↔
    type.hasMark = false ∧ ∀ t ∈ type.alternatives, ctx.saysNothing t = true
  | .nullable inner => by
    -- a `null` is added behind the alternatives, so that there is always something to compress
    rw [convert, hasMark]
    exact iff_of_false (compress_ne_nil .native (by simp)) (by simp)
  | .union members | .inter members => by
    rw [convert, alternatives, hasMark, convertAll_eq_nil_iff members]
  | .conditional yes no => by
    rw [convert, List.append_eq_nil_iff, alternatives, List.forall_mem_append, hasMark,
      Bool.or_eq_false_iff, convert_eq_nil_iff yes, convert_eq_nil_iff no]
    exact and_and_and_comm
  | .name _ | .array _ | .generic _ _ | .shape _ _ | .callable _ _ _ | .literal _ => by
    rw [(alternatives_eq_self rfl).1, (alternatives_eq_self rfl).2, List.forall_mem_singleton]
    exact (comesTo_convert ctx rfl).eq_nil_iff.trans (and_iff_right rfl).symm

theorem convertAll_eq_nil_iff : ∀ members : List TypeExpr, ctx.convertAll members = [] ↔
    anyHasMark members = false ∧ ∀ t ∈ alternativesOf members, ctx.saysNothing t = true
  | [] => by simp [convertAll, alternativesOf, anyHasMark]
  | t :: ts => by
    rw [convertAll, List.append_eq_nil_iff, alternativesOf, List.forall_mem_append, anyHasMark,
      Bool.or_eq_false_iff, convert_eq_nil_iff t, convertAll_eq_nil_iff ts]
    exact and_and_and_comm

end

theorem compress_convert_iff (ctx : TypeContext) (source : Source) (type : TypeExpr) :
    compress source (ctx.convert type) = [null] ↔
      (∀ t ∈ type.alternatives, t.saysNull = true ∨ ctx.saysNothing t = true) ∧
        (type.hasMark = true ∨ ∃ t ∈ type.alternatives, t.saysNull = true) := by
  rw [compress_eq_null_iff, onlyNull_convert_iff]
  refine and_congr_right fun hall => ?_
  rw [Ne, convert_eq_nil_iff, not_and_or, Bool.not_eq_false]
  refine or_congr_right ?_
  constructor
  · intro hspeaks
    obtain ⟨t, ht, hnothing⟩ : ∃ t ∈ type.alternatives, ctx.saysNothing t = false := by
      simpa using hspeaks
    exact ⟨t, ht, (hall t ht).resolve_right (by simp [hnothing])⟩
  · rintro ⟨t, ht, hnull⟩ hnothing
    have hspeaks := not_saysNothing_of_saysNull ctx hnull
    rw [hnothing t ht] at hspeaks
    cases hspeaks

/-- A type, annotated or native, is documented as nothing but `null` exactly if each of its
alternatives is `null` or `void` or says nothing, and one of them is `null` or `void` or a `?`
stands in front of some of them. -/
theorem unify_eq_null_iff (ctx : TypeContext) (type : TypeExpr) :
    let bare := (∀ t ∈ type.alternatives, t.saysNull = true ∨ ctx.saysNothing t = true) ∧
      (type.hasMark = true ∨ ∃ t ∈ type.alternatives, t.saysNull = true)
    ((ctx.unifyAnnotated type).1.types = [null] ↔ bare) ∧
        ((ctx.unify none (some type)).1.types = [null] ↔ bare) :=
  ⟨ctx.compress_convert_iff .annotated type, ctx.compress_convert_iff .native type⟩

/-- `mixed|null` admits every value, and it is documented as `null`. -/
theorem unify_mixed_null :
    let ctx : TypeContext := { scope := {}, root := "Book", owner := "Book::$x" }
    (ctx.unifyAnnotated (.union [.name "mixed", .name "null"])).1.types = [null] ∧
      (ctx.unifyAnnotated (.name "mixed")).1.types = [] := by
  decide

end TypeContext

end ClassDocs

import ClassDocs.Proofs.NullFold

/-!
# Where `null` may stand

The alternatives of a member's type are lists inside lists: those of the type itself, and below
each of them those of its keys and of its values. In every one of them `null` comes last or alone,
since all are compressed on their own. There is one exception. The values of a shape are put
together from its fields, each of which is compressed before, and so `null` may stand anywhere
among them.

What holds of a single entry is `Placed`, and `Everywhere` says it of all entries at any depth.
That an entry has a class name exactly if it is a class is known from how types are made
(`Made.named`). The order of `null` is kept by each step of the conversion, whatever shapes are
excepted, and by the choice between annotation and native type (`unify_places_null`).
-/

namespace ClassDocs

namespace TypeExpr

/-- A type has another one as a part, at any depth. -/
def HasPart (type part : TypeExpr) : Prop := ∃ way, type = fillAt way part

theorem HasPart.refl (type : TypeExpr) : type.HasPart type := ⟨[], rfl⟩

theorem HasPart.fill (frame : Frame) {t part : TypeExpr} (h : t.HasPart part) :
    (frame.fill t).HasPart part := by
  obtain ⟨way, rfl⟩ := h
  exact ⟨frame :: way, rfl⟩

end TypeExpr

namespace TypeRef

/-- There is no `null` in a list, or nothing else. -/
inductive NullAlone : List TypeRef → Prop where
  | without {types : List TypeRef} : (∀ t ∈ types, t.isNull = false) → NullAlone types
  | only : NullAlone [null]

/-- There is at most one `null` in a list, alone or at the end behind at least two other types. -/
inductive NullLast : List TypeRef → Prop where
  | alone {types : List TypeRef} : NullAlone types → NullLast types
  | behind {types : List TypeRef} :
      2 ≤ types.length → (∀ t ∈ types, t.isNull = false) → NullLast (types ++ [null])

variable {types : List TypeRef}

theorem NullLast.getLast? (h : NullLast types) {t : TypeRef} (ht : t ∈ types)
    (hnull : t.isNull = true) :
    types.getLast? = some null := by
  cases h with
  | alone h =>
    cases h with
    | without hwithout => simp [hwithout t ht] at hnull
    | only => rfl
  | behind => exact List.getLast?_concat

/-- The order of `null` depends only on which entries are `null`. -/
theorem NullLast.map {f : TypeRef → TypeRef} (h : NullLast types) (hnull : f null = null)
    (hother : ∀ t, t.isNull = false → (f t).isNull = false) : NullLast (types.map f) := by
  have hothers : ∀ {types : List TypeRef}, (∀ t ∈ types, t.isNull = false) → ∀ t ∈ types.map f,
      t.isNull = false :=
    fun hwithout => List.forall_mem_map.mpr fun t ht => hother t (hwithout t ht)
  cases h with
  | alone h =>
    cases h with
    | without hwithout => exact .alone (.without (hothers hwithout))
    | only => simpa [hnull] using NullLast.alone .only
  | behind hlength hwithout =>
    rw [List.map_append, List.map_singleton, hnull]
    exact .behind (by simpa using hlength) (hothers hwithout)

end TypeRef

namespace TypeContext

open TypeRef TypeExpr

variable {ctx : TypeContext} {parts : TypeExpr → Prop}

/-! ## Entries -/

/-- The type that a shape among some parts stands for, nullable or not. -/
def FromShape (ctx : TypeContext) (parts : TypeExpr → Prop) (t : TypeRef) : Prop :=
  ∃ base fields, parts (.shape base fields) ∧
    t.withNullable false = convertShape base (fields.map (·.key)) (ctx.convertFields fields)

/-- The order within an entry. A `null` is the plain one, neither nullable nor a collection, and
`null` has its place among the types of keys and values unless these are from the fields of a
shape. -/
structure Ordered (ctx : TypeContext) (parts : TypeExpr → Prop) (t : TypeRef) : Prop where
  plain : t.isNull = true → t = TypeRef.null
  keys : NullLast t.keys
  values : NullLast t.values ∨ ctx.FromShape parts t

/-- What holds of an entry: it is in order, and has a class name exactly if it is a class. -/
structure Placed (ctx : TypeContext) (parts : TypeExpr → Prop) (t : TypeRef) : Prop
    extends Ordered ctx parts t where
  className : t.className?.isSome = true ↔ t.kind = .object

theorem nullLast_nil : NullLast [] := .alone (.without (by simp))

/-- An entry other than `null` is in order if its lists are. -/
theorem Ordered.of_lists {t : TypeRef} (hnull : t.isNull = false) (hkeys : NullLast t.keys)
    (hvalues : NullLast t.values ∨ ctx.FromShape parts t) : ctx.Ordered parts t where
  plain h := by simp [hnull] at h
  keys := hkeys
  values := hvalues

theorem Ordered.withNullable {t : TypeRef} (h : ctx.Ordered parts t) (hnull : t.isNull = false)
    (nullable : Bool) :
    ctx.Ordered parts (t.withNullable nullable) :=
  .of_lists hnull h.keys h.values

/-- A list in which `null` has its place, with nothing out of order below. -/
structure InOrder (ctx : TypeContext) (parts : TypeExpr → Prop) (types : List TypeRef) : Prop where
  nullLast : NullLast types
  below : Everywhere (ctx.Ordered parts) types

/-- Entries without keys and values. -/
theorem everywhere_leaves {types : List TypeRef}
    (h : ∀ t ∈ types, (t.isNull = true → t = null) ∧ t.keys = [] ∧ t.values = []) :
    Everywhere (ctx.Ordered parts) types := by
  rw [everywhere_iff]
  intro t ht
  obtain ⟨hnull, hkeys, hvalues⟩ := h t ht
  refine ⟨⟨hnull, ?_, .inl ?_⟩, ?_, ?_⟩
  · rw [hkeys]; exact nullLast_nil
  · rw [hvalues]; exact nullLast_nil
  · rw [hkeys]; exact everywhere_nil
  · rw [hvalues]; exact everywhere_nil

theorem everywhere_null : Everywhere (ctx.Ordered parts) [null] :=
  everywhere_leaves (by simp [null])

theorem everywhere_builtin (name : String) : Everywhere (ctx.Ordered parts) [builtin name] :=
  everywhere_leaves (by simp [builtin, isNull])

theorem everywhere_object (name : String) : Everywhere (ctx.Ordered parts) [object name] :=
  everywhere_leaves (by simp [object, isNull])

theorem everywhere_callable : Everywhere (ctx.Ordered parts) [TypeRef.callable] :=
  everywhere_leaves (by simp [TypeRef.callable, isNull])

theorem inOrder_nil : ctx.InOrder parts [] := ⟨nullLast_nil, everywhere_nil⟩

theorem nullLast_builtin (name : String) : NullLast [builtin name] :=
  .alone (.without (by simp [builtin, isNull]))

theorem inOrder_builtin (name : String) : ctx.InOrder parts [builtin name] :=
  ⟨nullLast_builtin name, everywhere_builtin name⟩

/-- An entry other than `null` whose keys and values are in order. -/
theorem everywhere_collection {t : TypeRef} (hnull : t.isNull = false)
    (hkeys : ctx.InOrder parts t.keys) (hvalues : ctx.InOrder parts t.values) :
    Everywhere (ctx.Ordered parts) [t] :=
  everywhere_singleton.mpr ⟨.of_lists hnull hkeys.nullLast (.inl hvalues.nullLast), hkeys.below,
    hvalues.below⟩

/-! ## Compressing -/

theorem isNull_of_mem_concretes (types : List TypeRef) : ∀ t ∈ concretes types, t.isNull = false :=
  fun _ ht => (mem_concretes.mp ht).2

/-- A nullable type in place of the first one is no `null` either. -/
theorem isNull_of_mem_absorbed {types rest : List TypeRef} {t : TypeRef}
    (h : concretes types = t :: rest) :
    ∀ u ∈ t.withNullable true :: rest, u.isNull = false := by
  have hconcretes := isNull_of_mem_concretes types
  rw [h] at hconcretes
  exact List.forall_mem_cons.mpr (List.forall_mem_cons.mp hconcretes)

theorem nullAlone_or_behind (source : Source) (types : List TypeRef) :
    NullAlone (compress source types) ∨
    source = .native ∧ 2 ≤ (concretes types).length ∧
      compress source types = concretes types ++ [null] := by
  rcases compress_cases source types with h | h | ⟨t, rest, hfirst, h⟩ | hbehind
  · rw [h]
    exact .inl (.without (isNull_of_mem_concretes types))
  · rw [h]
    exact .inl .only
  · rw [h]
    exact .inl (.without (isNull_of_mem_absorbed hfirst))
  · exact .inr hbehind

theorem nullAlone_compress (types : List TypeRef) : NullAlone (compress .annotated types) := by
  rcases nullAlone_or_behind .annotated types with halone | ⟨hsource, -⟩
  · exact halone
  · cases hsource

theorem nullLast_compress (source : Source) (types : List TypeRef) :
    NullLast (compress source types) := by
  rcases nullAlone_or_behind source types with halone | ⟨-, hlength, h⟩
  · exact .alone halone
  · rw [h]
    exact .behind hlength (isNull_of_mem_concretes types)

theorem everywhere_compress (source : Source) {types : List TypeRef}
    (h : Everywhere (ctx.Ordered parts) types) :
    Everywhere (ctx.Ordered parts) (compress source types) :=
  everywhere_compress_of (everywhere_singleton.mp everywhere_null).1
    (fun _ hnull hordered => hordered.withNullable hnull true) source h

theorem inOrder_compress (source : Source) {types : List TypeRef}
    (h : Everywhere (ctx.Ordered parts) types) :
    ctx.InOrder parts (compress source types) :=
  ⟨nullLast_compress source types, everywhere_compress source h⟩

/-! ## Converting -/

theorem everywhere_pseudoType? {keyword : String} {types : List TypeRef}
    (h : pseudoType? keyword = some types) :
    Everywhere (ctx.Ordered parts) types := by
  apply everywhere_leaves
  unfold pseudoType? at h
  split at h <;> cases h <;> simp [builtin, null, isNull]

theorem everywhere_convertName (name : String) :
    Everywhere (ctx.Ordered parts) (ctx.convertName name) := by
  unfold convertName
  cases hpseudo : pseudoType? (Text.lower name) with
  | some types =>
    simp only [hpseudo]
    exact everywhere_pseudoType? hpseudo
  | none =>
    simp only [hpseudo]
    split
    case h_1 | h_2 | h_3 => exact everywhere_object _
    case h_4 =>
      cases ctx.parent with
      | none => exact everywhere_nil
      | some parent => exact everywhere_object parent
    case h_5 | h_6 => exact everywhere_collection rfl inOrder_nil inOrder_nil
    case h_7 | h_8 => exact everywhere_collection rfl (inOrder_builtin "int") inOrder_nil
    case h_9 | h_10 => exact everywhere_callable
    case h_11 =>
      split_ifs
      case neg => exact everywhere_object _
      all_goals exact everywhere_builtin _

theorem everywhere_convertGeneric (base : String) {params : List (List TypeRef)}
    (h : ∀ types ∈ params, ctx.InOrder parts types) :
    Everywhere (ctx.Ordered parts) (ctx.convertGeneric base params) := by
  unfold convertGeneric
  split
  rename_i keys values hparams
  -- whatever number of parameters there is, keys and values are empty or among them
  have hlists : ctx.InOrder parts keys ∧ ctx.InOrder parts values := by
    rcases params with _ | ⟨value, _ | ⟨key, rest⟩⟩
    · cases hparams
      exact ⟨inOrder_nil, inOrder_nil⟩
    · cases hparams
      exact ⟨inOrder_nil, h _ (by simp)⟩
    · cases hparams
      exact ⟨h _ (by simp), h _ (by simp)⟩
  have hlast : ctx.InOrder parts (params.getLast?.getD []) := by
    cases hlast : params.getLast? with
    | none => exact inOrder_nil
    | some types => exact h types (List.mem_of_getLast? hlast)
  dsimp only
  split
  case h_1 | h_2 | h_5 => exact everywhere_collection rfl hlists.1 hlists.2
  case h_3 | h_4 => exact everywhere_collection rfl (inOrder_builtin "int") hlast
  case h_6 => exact everywhere_builtin "int"
  case h_7 =>
    split_ifs
    · exact everywhere_convertName base
    · exact everywhere_builtin base
    · exact everywhere_collection rfl hlists.1 hlists.2

theorem everywhere_convertShape {base : String} {fields : List ShapeField}
    (hpart : parts (.shape base fields))
    (h : ∀ types ∈ ctx.convertFields fields, ctx.InOrder parts types) :
    Everywhere (ctx.Ordered parts)
      [convertShape base (fields.map (·.key)) (ctx.convertFields fields)] := by
  by_cases hobject : Text.sameName base "object" = true
  · rw [convertShape, if_pos hobject]
    exact everywhere_builtin "object"
  · have hshape : ctx.FromShape parts
        (convertShape base (fields.map (·.key)) (ctx.convertFields fields)) := by
      refine ⟨base, fields, hpart, ?_⟩
      rw [convertShape, if_neg hobject]
      rfl
    have hvalues : Everywhere (ctx.Ordered parts)
        ((ctx.convertFields fields).flatten.foldl addNew []) := by
      rw [everywhere_iff]
      intro t ht
      rw [mem_foldl_addNew, List.mem_flatten] at ht
      obtain ⟨types, htypes, ht⟩ := ht.resolve_left List.not_mem_nil
      exact everywhere_iff.mp (h types htypes).below t ht
    rw [convertShape, if_neg hobject] at hshape ⊢
    exact everywhere_singleton.mpr
      ⟨.of_lists rfl (nullLast_builtin _) (.inr hshape), everywhere_builtin _, hvalues⟩

mutual

/-- **Each step of the conversion keeps the order**, with the shapes that stand in the type
excepted. -/
theorem everywhere_convert : ∀ type : TypeExpr, (∀ part, type.HasPart part → parts part) →
    Everywhere (ctx.Ordered parts) (ctx.convert type)
  | .name text, _ => by
    rw [convert]
    exact everywhere_convertName text
  | .nullable inner, h => by
    have hinner := everywhere_convert inner fun part hpart => h part (hpart.fill .nullable)
    rw [convert]
    exact everywhere_compress .native (everywhere_append.mpr ⟨hinner, everywhere_null⟩)
  | .union members, h => by
    rw [convert]
    refine everywhere_convertAll members fun m hm part hpart => h part ?_
    obtain ⟨before, after, rfl⟩ := List.append_of_mem hm
    exact hpart.fill (.union before after)
  | .inter members, h => by
    rw [convert]
    refine everywhere_convertAll members fun m hm part hpart => h part ?_
    obtain ⟨before, after, rfl⟩ := List.append_of_mem hm
    exact hpart.fill (.inter before after)
  | .array element, h => by
    have helement :=
      everywhere_convert element fun part hpart => h part (hpart.fill (.slot .element))
    rw [convert]
    exact everywhere_collection rfl inOrder_nil (inOrder_compress .native helement)
  | .generic base params, h => by
    rw [convert]
    refine everywhere_convertGeneric base
      (inOrder_convertEach params fun p hp part hpart => h part ?_)
    obtain ⟨before, after, rfl⟩ := List.append_of_mem hp
    exact hpart.fill (.slot (.param base before after))
  | .shape base fields, h => by
    rw [convert]
    refine everywhere_convertShape (h _ (.refl _))
      (inOrder_convertFields fields fun f hf part hpart => h part ?_)
    obtain ⟨before, after, rfl⟩ := List.append_of_mem hf
    obtain ⟨key, optional, value⟩ := f
    exact hpart.fill (.slot (.field base before after key optional))
  | .callable base params result, _ => by
    rw [convert]
    split
    · exact everywhere_object "Closure"
    · exact everywhere_callable
  | .literal (.text _), _ | .literal (.int _), _ | .literal (.float _), _ => by
    rw [convert]
    exact everywhere_builtin _
  | .conditional yes no, h => by
    rw [convert, everywhere_append]
    exact ⟨everywhere_convert yes fun part hpart => h part (hpart.fill (.yes no)),
      everywhere_convert no fun part hpart => h part (hpart.fill (.no yes))⟩

theorem everywhere_convertAll :
    ∀ members : List TypeExpr, (∀ m ∈ members, ∀ part, m.HasPart part → parts part) →
    Everywhere (ctx.Ordered parts) (ctx.convertAll members)
  | [], _ => everywhere_nil
  | m :: ms, h => by
    rw [convertAll, everywhere_append]
    exact ⟨everywhere_convert m (h m List.mem_cons_self),
      everywhere_convertAll ms fun m' hm' => h m' (List.mem_cons_of_mem m hm')⟩

theorem inOrder_convertEach :
    ∀ params : List TypeExpr, (∀ p ∈ params, ∀ part, p.HasPart part → parts part) →
    ∀ types ∈ ctx.convertEach params, ctx.InOrder parts types
  | [], _ => by simp [convertEach]
  | p :: ps, h => by
    rw [convertEach, List.forall_mem_cons]
    exact ⟨inOrder_compress .native (everywhere_convert p (h p List.mem_cons_self)),
      inOrder_convertEach ps fun p' hp' => h p' (List.mem_cons_of_mem p hp')⟩

theorem inOrder_convertFields : ∀ fields : List ShapeField,
    (∀ f ∈ fields, ∀ part, f.value.HasPart part → parts part) →
      ∀ types ∈ ctx.convertFields fields, ctx.InOrder parts types
  | [], _ => by simp [convertFields]
  | .mk key optional value :: fields, h => by
    rw [convertFields, List.forall_mem_cons]
    exact ⟨inOrder_compress .native
      (everywhere_convert value (h (.mk key optional value) List.mem_cons_self)),
      inOrder_convertFields fields fun f hf => h f (List.mem_cons_of_mem _ hf)⟩

end

/-! ## Choosing -/

theorem isNull_of_className? {t : TypeRef} (hnamed : t.Named) (h : t.className?.isSome = true) :
    t.isNull = false := by
  rw [isNull, hnamed.isSome_iff.mp h]
  rfl

theorem inOrder_map_refineWith {types annotated : List TypeRef} (h : ctx.InOrder parts types)
    (hannotated : Everywhere (ctx.Ordered parts) annotated) (hnamed : ∀ t ∈ annotated, t.Named) :
    ctx.InOrder parts (types.map (refineWith annotated)) := by
  constructor
  · refine h.nullLast.map rfl fun t ht => ?_
    rcases refineWith_cases annotated t with heq | ⟨found, hfound, hclass, heq⟩
    · rwa [heq]
    · rw [heq]
      exact isNull_of_className? (hnamed found hfound) hclass
  · rw [everywhere_iff, List.forall_mem_map]
    intro t ht
    rcases refineWith_cases annotated t with heq | ⟨found, hfound, hclass, heq⟩
    · rw [heq]
      exact everywhere_iff.mp h.below t ht
    · obtain ⟨hordered, hlists⟩ := everywhere_iff.mp hannotated found hfound
      have hnull := isNull_of_className? (hnamed found hfound) hclass
      rw [heq]
      exact ⟨hordered.withNullable hnull _, hlists⟩

/-- The parts of a member's type: those of the annotated and of the native one. -/
def partsOf (tag : Option Tag) (native : Option TypeExpr) (part : TypeExpr) : Prop :=
  ∃ type, (tag.bind Tag.type? = some type ∨ native = some type) ∧ type.HasPart part

theorem inOrder_unify (ctx : TypeContext) (tag : Option Tag) (native : Option TypeExpr) :
    ctx.InOrder (partsOf tag native) (ctx.unify tag native).1.types := by
  have hconvert : ∀ type, tag.bind Tag.type? = some type ∨ native = some type →
      Everywhere (ctx.Ordered (partsOf tag native)) (ctx.convert type) := fun type htype =>
    everywhere_convert type fun part hpart => ⟨type, htype, hpart⟩
  cases htag : tag.bind Tag.type? with
  | none =>
    rw [unify_of_untyped htag]
    cases native with
    | none => exact inOrder_nil
    | some declared => exact inOrder_compress .native (hconvert declared (.inr rfl))
  | some annotated =>
    have hannotated := hconvert annotated (.inl htag)
    unfold unify
    rw [tagValue_of_type? htag]
    cases native with
    | none => exact inOrder_compress .annotated hannotated
    | some declared =>
      dsimp only
      split
      · unfold refineNative
        dsimp only
        split
        · exact inOrder_map_refineWith (inOrder_compress .native (hconvert declared (.inr rfl)))
            hannotated fun _ => named_of_mem_convert
        · exact inOrder_compress .annotated hannotated
      · exact inOrder_compress .annotated hannotated

/-- **Where `null` may stand in a member's type.** In the list itself it stands alone or last, and
in an annotated list only alone. The same holds of the keys and values at any depth, unless they
are the values of a shape in the annotated or native type. -/
theorem unify_places_null (ctx : TypeContext) (tag : Option Tag) (native : Option TypeExpr) :
    NullLast (ctx.unify tag native).1.types ∧
      (∀ type, NullAlone (ctx.unifyAnnotated type).1.types) ∧
      ∀ t, Within (ctx.unify tag native).1.types t → ctx.Placed (partsOf tag native) t :=
  ⟨(inOrder_unify ctx tag native).nullLast, fun type => nullAlone_compress (ctx.convert type),
    fun t ht =>
      { toOrdered := (inOrder_unify ctx tag native).below t ht
        className := (everywhere_made_unify tag native t ht).named.isSome_iff }⟩

/-- The context of a property of a class `Shelf`. -/
def shelfContext : TypeContext := { scope := {}, root := "Shelf", owner := "Shelf::$x" }

/-- The annotation `Book<array{null, int}>`. -/
def shapedTag : Tag :=
  { kind := .var, forAnalyser := false, subject := none, text := ""
    value := .typed (.generic "Book"
      [.shape "array" [.mk none false (.name "null"), .mk none false (.name "int")]]) }

/-- The native type `Book|Author|null`. -/
def listedType : TypeExpr := .union [.name "Book", .name "Author", .name "null"]

/-- The array that `Book` takes over from the annotation has its `null` in front, since it is from
the shape. -/
theorem unify_places_null_shape :
    Within (shelfContext.unify (some shapedTag) (some listedType)).1.types
        (TypeRef.array [builtin "int"] [null, builtin "int"]) ∧
      shelfContext.FromShape (partsOf (some shapedTag) (some listedType))
        (TypeRef.array [builtin "int"] [null, builtin "int"]) := by
  have htypes : (shelfContext.unify (some shapedTag) (some listedType)).1.types =
      [objectCollection "Book" [] [TypeRef.array [builtin "int"] [null, builtin "int"]],
          object "Author", null] := by
    decide +kernel
  have hwithin : Within (shelfContext.unify (some shapedTag) (some listedType)).1.types
      (TypeRef.array [builtin "int"] [null, builtin "int"]) := by
    rw [htypes]
    exact .value List.mem_cons_self (.here List.mem_cons_self)
  have hplaced := (unify_places_null shelfContext (some shapedTag) (some listedType)).2.2 _ hwithin
  refine ⟨hwithin, hplaced.values.resolve_left fun hlast => ?_⟩
  cases hlast.getLast? List.mem_cons_self rfl

end TypeContext

end ClassDocs

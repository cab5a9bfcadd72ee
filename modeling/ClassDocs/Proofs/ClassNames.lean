import ClassDocs.TypeRef.Unify

/-!
# Which types have a class name

A class carries its class name beside its name, and nothing in the record says that only a class
has one. It is so because there are few ways to make a type (`Made`), and each of them gives
a class name to classes only (`Made.named`).

The unifier makes all its types in these ways, at every depth: the types of keys and values are
converted like the type itself, compressing changes nullability only, and a native class that an
annotation gives parameters to becomes the annotated class (`everywhere_made_unify`).
-/

namespace ClassDocs

namespace TypeRef

/-- The ways to make a type. -/
inductive Made : TypeRef → Prop where
  | builtin (name : String) : Made (builtin name)
  | builtinCollection (name : String) (keys values : List TypeRef) :
      Made (builtinCollection name keys values)
  | object (className : String) : Made (object className)
  | objectCollection (className : String) (keys values : List TypeRef) :
      Made (objectCollection className keys values)
  | array (keys values : List TypeRef) : Made (array keys values)
  | callable : Made callable
  | null : Made null
  | withNullable {t : TypeRef} (nullable : Bool) : Made t → Made (t.withNullable nullable)
  | withDescription {t : TypeRef} (description : Option String) : Made t →
      Made (t.withDescription description)

/-- A class has its name as class name, and no other type has one. -/
def Named (t : TypeRef) : Prop := t.className? = if t.kind = .object then some t.name else none

theorem Made.named {t : TypeRef} (h : Made t) : t.Named := by
  induction h with
  | withNullable _ _ ih => exact ih
  | withDescription _ _ ih => exact ih
  | _ => rfl

theorem Named.isSome_iff {t : TypeRef} (h : t.Named) :
    t.className?.isSome = true ↔ t.kind = .object := by
  rw [h]
  split <;> simp_all

/-! ## Entries at any depth -/

/-- An entry of a list, or of the keys or values of an entry, at any depth. -/
inductive Within : List TypeRef → TypeRef → Prop where
  | here {types : List TypeRef} {t : TypeRef} : t ∈ types → Within types t
  | key {types : List TypeRef} {t u : TypeRef} : u ∈ types → Within u.keys t → Within types t
  | value {types : List TypeRef} {t u : TypeRef} : u ∈ types → Within u.values t → Within types t

/-- Something holds of all entries of a list, at any depth. -/
def Everywhere (p : TypeRef → Prop) (types : List TypeRef) : Prop := ∀ t, Within types t → p t

variable {p : TypeRef → Prop} {types types' : List TypeRef}

theorem everywhere_iff : Everywhere p types ↔ ∀ t ∈ types, p t ∧ Everywhere p t.keys ∧
    Everywhere p t.values := by
  constructor
  · intro h t ht
    exact ⟨h t (.here ht), fun u hu => h u (.key ht hu), fun u hu => h u (.value ht hu)⟩
  · intro h t ht
    cases ht with
    | here ht => exact (h t ht).1
    | key hu ht => exact (h _ hu).2.1 t ht
    | value hu ht => exact (h _ hu).2.2 t ht

theorem everywhere_nil : Everywhere p [] := everywhere_iff.mpr (by simp)

theorem everywhere_append :
    Everywhere p (types ++ types') ↔ Everywhere p types ∧ Everywhere p types' := by
  rw [everywhere_iff, List.forall_mem_append, ← everywhere_iff, ← everywhere_iff]

theorem everywhere_singleton {t : TypeRef} :
    Everywhere p [t] ↔ p t ∧ Everywhere p t.keys ∧ Everywhere p t.values := by
  rw [everywhere_iff, List.forall_mem_singleton]

end TypeRef

namespace TypeContext

open TypeRef

variable {ctx : TypeContext}

/-! ## Compressing -/

theorem mem_foldl_addNew {t : TypeRef} (types : List TypeRef) : ∀ sofar : List TypeRef,
    t ∈ types.foldl addNew sofar ↔ t ∈ sofar ∨ t ∈ types := by
  induction types with
  | nil => intro sofar; simp
  | cons u types ih =>
    intro sofar
    rw [List.foldl_cons, ih, addNew]
    split
    · rename_i hmem
      rw [List.contains_iff_mem] at hmem
      constructor
      · rintro (h | h)
        · exact .inl h
        · exact .inr (List.mem_cons_of_mem u h)
      · rintro (h | h)
        · exact .inl h
        · rcases List.mem_cons.mp h with rfl | h
          · exact .inl hmem
          · exact .inr h
    · simp [or_assoc]

theorem mem_concretes {t : TypeRef} {types : List TypeRef} :
    t ∈ concretes types ↔ t ∈ types ∧ t.isNull = false := by
  simp [concretes, mem_foldl_addNew]

/-- What compressing comes to: the types other than `null`, with a `null` put in nowhere, alone,
into the first of them or, in a native list, behind several of them. -/
theorem compress_cases (source : Source) (types : List TypeRef) :
    compress source types = concretes types ∨ compress source types = [null] ∨
      (∃ t rest, concretes types = t :: rest ∧
        compress source types = t.withNullable true :: rest) ∨
      source = .native ∧ 2 ≤ (concretes types).length ∧
        compress source types = concretes types ++ [null] := by
  unfold compress
  split
  · rcases concretes types with _ | ⟨t, _ | ⟨u, rest⟩⟩
    · exact .inr (.inl rfl)
    · exact .inr (.inr (.inl ⟨t, [], rfl, rfl⟩))
    · cases source with
      | annotated => exact .inr (.inr (.inl ⟨t, u :: rest, rfl, rfl⟩))
      | native => exact .inr (.inr (.inr ⟨rfl, by simp, rfl⟩))
  · exact .inl rfl

/-- Something that `null` has and that nullability does not touch is kept by compressing. -/
theorem everywhere_compress_of {p : TypeRef → Prop} (hnull : p null)
    (hnullable : ∀ t, t.isNull = false → p t → p (t.withNullable true)) (source : Source)
    {types : List TypeRef} (h : Everywhere p types) : Everywhere p (compress source types) := by
  have hleaf : Everywhere p [null] :=
    everywhere_singleton.mpr ⟨hnull, everywhere_nil, everywhere_nil⟩
  have hconcretes : Everywhere p (concretes types) := by
    rw [everywhere_iff] at h ⊢
    exact fun t ht => h t (mem_concretes.mp ht).1
  rcases compress_cases source types with heq | heq | ⟨t, rest, hfirst, heq⟩ | ⟨-, -, heq⟩
  · rwa [heq]
  · rw [heq]
    exact hleaf
  · have ht : t.isNull = false := (mem_concretes.mp (by rw [hfirst]; exact List.mem_cons_self)).2
    rw [hfirst, everywhere_iff, List.forall_mem_cons, ← everywhere_iff] at hconcretes
    rw [heq, everywhere_iff, List.forall_mem_cons, ← everywhere_iff]
    exact ⟨⟨hnullable t ht hconcretes.1.1, hconcretes.1.2⟩, hconcretes.2⟩
  · rw [heq]
    exact everywhere_append.mpr ⟨hconcretes, hleaf⟩

theorem everywhere_made_compress (source : Source) {types : List TypeRef}
    (h : Everywhere Made types) : Everywhere Made (compress source types) :=
  everywhere_compress_of .null (fun _ _ => .withNullable true) source h

/-! ## Converting -/

/-- A type with the types of its keys and values. -/
theorem everywhere_made {t : TypeRef} (ht : Made t) (hkeys : Everywhere Made t.keys)
    (hvalues : Everywhere Made t.values) : Everywhere Made [t] :=
  everywhere_singleton.mpr ⟨ht, hkeys, hvalues⟩

theorem everywhere_made_builtin (name : String) : Everywhere Made [builtin name] :=
  everywhere_made (.builtin name) everywhere_nil everywhere_nil

theorem everywhere_made_object (name : String) : Everywhere Made [object name] :=
  everywhere_made (.object name) everywhere_nil everywhere_nil

theorem everywhere_made_pseudoType? {keyword : String} {types : List TypeRef}
    (h : pseudoType? keyword = some types) : Everywhere Made types := by
  have hbuiltin (name : String) := everywhere_singleton.mp (everywhere_made_builtin name)
  have hnull : Made null ∧ Everywhere Made null.keys ∧ Everywhere Made null.values :=
    ⟨.null, everywhere_nil, everywhere_nil⟩
  rw [everywhere_iff]
  unfold pseudoType? at h
  split at h <;> cases h <;> simp [hbuiltin, hnull]

theorem everywhere_made_convertName (name : String) :
    Everywhere Made (ctx.convertName name) := by
  unfold convertName
  cases hpseudo : pseudoType? (Text.lower name) with
  | some types =>
    simp only [hpseudo]
    exact everywhere_made_pseudoType? hpseudo
  | none =>
    simp only [hpseudo]
    split
    case h_1 | h_2 | h_3 => exact everywhere_made_object _
    case h_4 =>
      cases ctx.parent with
      | none => exact everywhere_nil
      | some parent => exact everywhere_made_object parent
    case h_5 | h_6 => exact everywhere_made (.array _ _) everywhere_nil everywhere_nil
    case h_7 | h_8 =>
      exact everywhere_made (.array _ _) (everywhere_made_builtin "int") everywhere_nil
    case h_9 | h_10 => exact everywhere_made .callable everywhere_nil everywhere_nil
    case h_11 =>
      split
      · exact everywhere_made_builtin _
      split
      · exact everywhere_made_builtin _
      split
      · exact everywhere_made_builtin _
      · exact everywhere_made_object _

theorem everywhere_made_convertGeneric (base : String) {params : List (List TypeRef)}
    (h : ∀ types ∈ params, Everywhere Made types) :
    Everywhere Made (ctx.convertGeneric base params) := by
  unfold convertGeneric
  split
  rename_i keys values hparams
  have hlists : Everywhere Made keys ∧ Everywhere Made values := by
    rcases params with _ | ⟨value, _ | ⟨key, rest⟩⟩
    · cases hparams
      exact ⟨everywhere_nil, everywhere_nil⟩
    · cases hparams
      exact ⟨everywhere_nil, h _ (by simp)⟩
    · cases hparams
      exact ⟨h _ (by simp), h _ (by simp)⟩
  have hlast : Everywhere Made (params.getLast?.getD []) := by
    cases hlast : params.getLast? with
    | none => exact everywhere_nil
    | some types => exact h types (List.mem_of_getLast? hlast)
  dsimp only
  split
  case h_1 | h_2 => exact everywhere_made (.array _ _) hlists.1 hlists.2
  case h_3 | h_4 => exact everywhere_made (.array _ _) (everywhere_made_builtin "int") hlast
  case h_5 => exact everywhere_made (.builtinCollection _ _ _) hlists.1 hlists.2
  case h_6 => exact everywhere_made_builtin "int"
  case h_7 =>
    split
    · exact everywhere_made_convertName base
    split
    · exact everywhere_made_builtin base
    · exact everywhere_made (.objectCollection _ _ _) hlists.1 hlists.2

theorem everywhere_made_convertShape (base : String) (keys : List (Option String))
    {values : List (List TypeRef)} (h : ∀ types ∈ values, Everywhere Made types) :
    Everywhere Made [convertShape base keys values] := by
  unfold convertShape
  split
  · exact everywhere_made_builtin "object"
  · dsimp only
    refine everywhere_made (.array _ _) (everywhere_made_builtin _) (everywhere_iff.mpr ?_)
    intro t ht
    dsimp only [TypeRef.array] at ht
    rw [mem_foldl_addNew, List.mem_flatten] at ht
    obtain ⟨types, htypes, ht⟩ := ht.resolve_left List.not_mem_nil
    exact everywhere_iff.mp (h types htypes) t ht

mutual

theorem everywhere_made_convert : ∀ type : TypeExpr, Everywhere Made (ctx.convert type)
  | .name text => by
    rw [convert]
    exact everywhere_made_convertName text
  | .nullable inner => by
    have hnull := everywhere_made .null everywhere_nil everywhere_nil
    rw [convert]
    exact everywhere_made_compress .native
      (everywhere_append.mpr ⟨everywhere_made_convert inner, hnull⟩)
  | .union members | .inter members => by
    rw [convert]
    exact everywhere_made_convertAll members
  | .array element => by
    rw [convert]
    exact everywhere_made (.array _ _) everywhere_nil
      (everywhere_made_compress .native (everywhere_made_convert element))
  | .generic base params => by
    rw [convert]
    exact everywhere_made_convertGeneric base (everywhere_made_convertEach params)
  | .shape base fields => by
    rw [convert]
    exact everywhere_made_convertShape base _ (everywhere_made_convertFields fields)
  | .callable base params result => by
    rw [convert]
    split
    · exact everywhere_made_object "Closure"
    · exact everywhere_made .callable everywhere_nil everywhere_nil
  | .literal (.text _) | .literal (.int _) | .literal (.float _) => by
    rw [convert]
    exact everywhere_made_builtin _
  | .conditional yes no => by
    rw [convert, everywhere_append]
    exact ⟨everywhere_made_convert yes, everywhere_made_convert no⟩

theorem everywhere_made_convertAll : ∀ members : List TypeExpr,
    Everywhere Made (ctx.convertAll members)
  | [] => everywhere_nil
  | m :: ms => by
    rw [convertAll, everywhere_append]
    exact ⟨everywhere_made_convert m, everywhere_made_convertAll ms⟩

theorem everywhere_made_convertEach : ∀ params : List TypeExpr,
    ∀ types ∈ ctx.convertEach params, Everywhere Made types
  | [] => by simp [convertEach]
  | p :: ps => by
    rw [convertEach, List.forall_mem_cons]
    exact ⟨everywhere_made_compress .native (everywhere_made_convert p),
      everywhere_made_convertEach ps⟩

theorem everywhere_made_convertFields : ∀ fields : List ShapeField,
    ∀ types ∈ ctx.convertFields fields, Everywhere Made types
  | [] => by simp [convertFields]
  | .mk _ _ value :: fields => by
    rw [convertFields, List.forall_mem_cons]
    exact ⟨everywhere_made_compress .native (everywhere_made_convert value),
      everywhere_made_convertFields fields⟩

end

/-! ## Choosing -/

theorem named_of_mem_convert {type : TypeExpr} {t : TypeRef} (ht : t ∈ ctx.convert type) :
    t.Named :=
  (everywhere_made_convert type t (.here ht)).named

theorem named_of_mem_unifyNative {type : TypeExpr} {t : TypeRef}
    (ht : t ∈ (ctx.unifyNative type).types) : t.Named :=
  (everywhere_made_compress .native (everywhere_made_convert type) t (.here ht)).named

/-- A class may be replaced by an annotated one of its name, and nothing else is. -/
theorem refineWith_cases (annotated : List TypeRef) (t : TypeRef) :
    refineWith annotated t = t ∨ ∃ found ∈ annotated, found.className?.isSome = true ∧
      refineWith annotated t = found.withNullable t.nullable := by
  unfold refineWith
  split
  · exact .inl rfl
  · split
    · rename_i found hfind
      have hclass := List.find?_some hfind
      rw [Bool.and_eq_true] at hclass
      exact .inr ⟨found, List.mem_of_find?_eq_some hfind, Option.isSome_of_any hclass.2, rfl⟩
    · exact .inl rfl

theorem everywhere_made_refineNative (annotated native : TypeExpr) :
    Everywhere Made (ctx.refineNative annotated native).1.types := by
  have hannotated : Everywhere Made (ctx.convert annotated) := everywhere_made_convert annotated
  unfold refineNative
  dsimp only
  split
  · have hnative : Everywhere Made (ctx.unifyNative native).types :=
      everywhere_made_compress .native (everywhere_made_convert native)
    rw [everywhere_iff, List.forall_mem_map]
    intro t ht
    rcases refineWith_cases (ctx.convert annotated) t with heq | ⟨found, hfound, -, heq⟩
    · rw [heq]
      exact everywhere_iff.mp hnative t ht
    · obtain ⟨hmade, hlists⟩ := everywhere_iff.mp hannotated found hfound
      rw [heq]
      exact ⟨.withNullable _ hmade, hlists⟩
  · exact everywhere_made_compress .annotated hannotated

/-- **Every type of a member is made in one of the known ways**, at every depth. -/
theorem everywhere_made_unify (tag : Option Tag) (native : Option TypeExpr) :
    Everywhere Made (ctx.unify tag native).1.types := by
  have hnative : Everywhere Made ((native.map ctx.unifyNative).getD {}).types := by
    cases native with
    | none => exact everywhere_nil
    | some declared => exact everywhere_made_compress .native (everywhere_made_convert declared)
  have hannotated : ∀ annotated, Everywhere Made (ctx.unifyAnnotated annotated).1.types :=
    fun annotated => everywhere_made_compress .annotated (everywhere_made_convert annotated)
  unfold unify
  dsimp only
  split
  · split
    · exact everywhere_made_refineNative _ _
    · exact hannotated _
  · exact hannotated _
  · exact hnative
  · exact hnative
  · exact hnative

end TypeContext

end ClassDocs

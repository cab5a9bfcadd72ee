import ClassDocs.Proofs.TypeChoice

/-!
# Three ways to write that a type may be `null`

`?T`, `T|null` and `null|T` say the same, and they come out the same: as the type of a member,
annotated or native, with the issue it raises (`unify_spelling`), and inside any other type,
wherever the alternatives of a part are compressed on their own.

The three are not converted to the same list. `?T` is compressed at once, as if it were native, and
then again together with what stands around it; the unions are compressed once. What makes up for
this is that compressing as native loses nothing that a later compression looks at
(`alike_compress`).
-/

namespace ClassDocs

namespace TypeExpr

/-- A way to write that a type may be `null`. -/
inductive NullSpelling where
  /-- `?T` -/
  | mark
  /-- `T|null` -/
  | last
  /-- `null|T` -/
  | first

/-- A type that may be `null`, written in one of the three ways. -/
def NullSpelling.write : NullSpelling → TypeExpr → TypeExpr
  | .mark, t => .nullable t
  | .last, t => .union [t, .name "null"]
  | .first, t => .union [.name "null", t]

/-- A place inside a type where the alternatives are compressed on their own. -/
inductive Slot where
  | element
  | param (base : String) (before after : List TypeExpr)
  | field (base : String) (before after : List ShapeField) (key : Option String) (optional : Bool)

/-- The type with a part put into a slot. -/
def Slot.fill : Slot → TypeExpr → TypeExpr
  | .element, t => .array t
  | .param base before after, t => .generic base (before ++ t :: after)
  | .field base before after key optional, t => .shape base (before ++ .mk key optional t :: after)

/-- A place right below the top of a type. -/
inductive Frame where
  | slot (place : Slot)
  | nullable
  | union (before after : List TypeExpr)
  | inter (before after : List TypeExpr)
  | callableParam (base : String) (before after : List TypeExpr) (result : Option TypeExpr)
  | callableResult (base : String) (params : List TypeExpr)
  | yes (other : TypeExpr)
  | no (other : TypeExpr)

/-- The type with a part put into a place. -/
def Frame.fill : Frame → TypeExpr → TypeExpr
  | .slot place, t => place.fill t
  | .nullable, t => .nullable t
  | .union before after, t => .union (before ++ t :: after)
  | .inter before after, t => .inter (before ++ t :: after)
  | .callableParam base before after result, t => .callable base (before ++ t :: after) result
  | .callableResult base params, t => .callable base params (some t)
  | .yes other, t => .conditional t other
  | .no other, t => .conditional other t

/-- The type with a part put at the end of a way down, given from the top. -/
def fillAt (way : List Frame) (t : TypeExpr) : TypeExpr := way.foldr Frame.fill t

end TypeExpr

namespace TypeContext

open TypeRef TypeExpr

variable {ctx : TypeContext}

/-! ## The types other than `null` -/

theorem nodup_foldl_addNew (types : List TypeRef) : ∀ sofar : List TypeRef, sofar.Nodup →
    (types.foldl addNew sofar).Nodup := by
  induction types with
  | nil => exact fun sofar h => h
  | cons t types ih =>
    intro sofar h
    rw [List.foldl_cons]
    apply ih
    rw [addNew]
    split
    · exact h
    · rename_i hnew
      rw [List.contains_iff_mem] at hnew
      exact List.nodup_append.mpr ⟨h, List.nodup_cons.mpr ⟨List.not_mem_nil, List.nodup_nil⟩, by
        intro a ha b hb hab
        obtain rfl := List.mem_singleton.mp hb
        exact hnew (hab ▸ ha)⟩

/-- Nothing is dropped from a list without repetitions. -/
theorem foldl_addNew_of_nodup {types : List TypeRef} :
    ∀ sofar : List TypeRef, (sofar ++ types).Nodup →
    types.foldl addNew sofar = sofar ++ types := by
  induction types with
  | nil => intro sofar _; simp
  | cons t types ih =>
    intro sofar h
    have hnew : sofar.contains t = false := by
      rw [List.contains_eq_mem, decide_eq_false_iff_not]
      intro hmem
      exact (List.nodup_append.mp h).2.2 t hmem t List.mem_cons_self rfl
    rw [List.foldl_cons, addNew, hnew, if_neg Bool.false_ne_true, ih _ (by simpa using h),
      List.append_assoc, List.singleton_append]

theorem nodup_concretes (types : List TypeRef) : (concretes types).Nodup :=
  nodup_foldl_addNew _ [] List.nodup_nil

/-- A list of types other than `null` in which none is repeated is left as it is. -/
theorem concretes_eq_self {types : List TypeRef} (h : types.Nodup)
    (hnull : ∀ t ∈ types, t.isNull = false) :
    concretes types = types := by
  have hfilter : types.filter (!·.isNull) = types := by
    rw [List.filter_eq_self]
    intro t ht
    simp [hnull t ht]
  rw [concretes, hfilter, foldl_addNew_of_nodup [] (by simpa using h), List.nil_append]

theorem concretes_concretes (types : List TypeRef) :
    concretes (concretes types) = concretes types :=
  concretes_eq_self (nodup_concretes types) fun _ ht => (mem_concretes.mp ht).2

theorem concretes_append_null (types : List TypeRef) :
    concretes (types ++ [null]) = concretes types := by
  rw [concretes, List.filter_append]
  simp [concretes, isNull, null]

theorem concretes_null_cons (types : List TypeRef) :
    concretes (null :: types) = concretes types := by
  rw [concretes, List.filter_cons_of_neg (by simp [isNull, null]), concretes]

theorem any_isNull_concretes (types : List TypeRef) :
    (concretes types).any (·.isNull) = false := by
  rw [List.any_eq_false]
  intro t ht
  simp [(mem_concretes.mp ht).2]

/-! ## Compressing twice -/

/-- Two lists of alternatives that come to the same, whatever their source is. -/
structure Alike (types types' : List TypeRef) : Prop where
  compress : ∀ source, compress source types = compress source types'
  absorber : absorber? types = absorber? types'

theorem Alike.symm {types types' : List TypeRef} (h : Alike types types') : Alike types' types :=
  ⟨fun source => (h.compress source).symm, h.absorber.symm⟩

theorem Alike.trans {types types' types'' : List TypeRef} (h : Alike types types')
    (h' : Alike types' types'') :
    Alike types types'' :=
  ⟨fun source => (h.compress source).trans (h'.compress source), h.absorber.trans h'.absorber⟩

/-- Only the types other than `null` count, in order and each once, and whether there is a
`null`. -/
theorem alike_of_concretes {types types' : List TypeRef}
    (hnull : types.any (·.isNull) = types'.any (·.isNull))
    (h : concretes types = concretes types') : Alike types types' :=
  ⟨fun source => by unfold compress; rw [hnull, h], by unfold absorber?; rw [hnull, h]⟩

/-- Compressing as native takes nothing away that a compression after it looks at. -/
theorem alike_compress (types : List TypeRef) : Alike (compress .native types) types := by
  conv in (compress _ _) => unfold compress
  split
  · rename_i hnull
    split
    · -- nothing but `null`
      rename_i hnone
      exact alike_of_concretes hnull.symm (by rw [hnone]; rfl)
    · -- one type takes the nullability, so that no `null` is left; a single type is ambiguous
      -- neither way
      rename_i t hone
      have ht : t.isNull = false := (mem_concretes.mp (hone ▸ List.mem_singleton_self t)).2
      have hnullable : (t.withNullable true).isNull = false := ht
      have hnone : [t.withNullable true].any (·.isNull) = false := by simp [hnullable]
      have hself : concretes [t.withNullable true] = [t.withNullable true] :=
        concretes_eq_self (List.nodup_cons.mpr ⟨List.not_mem_nil, List.nodup_nil⟩)
          (by simp [hnullable])
      constructor
      · intro source
        unfold compress
        rw [hnone, hnull, hone, hself]
        rfl
      · unfold absorber?
        rw [hnone, hnull, hone]
        rfl
    · contradiction
    · -- several types: the list still has its `null`
      refine alike_of_concretes ?_ ?_
      · rw [hnull, List.any_append]
        simp [isNull, null]
      · rw [concretes_append_null, concretes_concretes]
  · rename_i hnull
    rw [Bool.not_eq_true] at hnull
    exact alike_of_concretes (by rw [any_isNull_concretes, hnull]) (concretes_concretes types)

theorem alike_null_cons (types : List TypeRef) : Alike (null :: types) (types ++ [null]) := by
  refine alike_of_concretes ?_ ?_
  · rw [List.any_cons, List.any_append]
    simp [isNull, null]
  · rw [concretes_null_cons, concretes_append_null]

/-! ## The three spellings -/

theorem convert_null : ctx.convert (.name "null") = [null] := by
  rw [convert]
  rfl

theorem alike_write (ctx : TypeContext) (spelling : NullSpelling) (type : TypeExpr) :
    Alike (ctx.convert (spelling.write type)) (ctx.convert type ++ [null]) := by
  cases spelling with
  | mark =>
    rw [NullSpelling.write, convert]
    exact alike_compress _
  | last =>
    rw [NullSpelling.write, convert, convertAll, convertAll, convertAll, convert_null,
      List.append_nil]
    exact ⟨fun _ => rfl, rfl⟩
  | first =>
    rw [NullSpelling.write, convert, convertAll, convertAll, convertAll, convert_null,
      List.append_nil]
    exact alike_null_cons _

theorem separatorOf_write (spelling : NullSpelling) (type : TypeExpr) :
    separatorOf (spelling.write type) = .union := by
  cases spelling <;> rfl

/-! ## Inside other types -/

theorem convertAll_eq (members : List TypeExpr) :
    ctx.convertAll members = members.flatMap ctx.convert := by
  induction members with
  | nil => rfl
  | cons t members ih => rw [convertAll, ih, List.flatMap_cons]

theorem convertFields_eq (fields : List ShapeField) :
    ctx.convertFields fields = fields.map fun f => compress .native (ctx.convert f.value) := by
  induction fields with
  | nil => rfl
  | cons f fields ih =>
    obtain ⟨key, optional, value⟩ := f
    rw [convertFields, ih, List.map_cons]
    rfl

/-- In a slot only the compressed alternatives of the part count. -/
theorem convert_slot (slot : Slot) {t t' : TypeExpr}
    (h : compress .native (ctx.convert t) = compress .native (ctx.convert t')) :
    ctx.convert (slot.fill t) = ctx.convert (slot.fill t') := by
  cases slot with
  | element => rw [Slot.fill, Slot.fill, convert, convert, h]
  | param base before after =>
    rw [Slot.fill, Slot.fill, convert, convert, convertEach_eq, convertEach_eq, List.map_append,
      List.map_append, List.map_cons, List.map_cons, h]
  | field base before after key optional =>
    rw [Slot.fill, Slot.fill, convert, convert, convertFields_eq, convertFields_eq]
    simp only [List.map_append, List.map_cons, ShapeField.key, ShapeField.value, h]

/-- In any place only the alternatives of the part count. -/
theorem convert_frame (frame : Frame) {t t' : TypeExpr} (h : ctx.convert t = ctx.convert t') :
    ctx.convert (frame.fill t) = ctx.convert (frame.fill t') := by
  cases frame with
  | slot place => exact convert_slot place (by rw [h])
  | nullable => rw [Frame.fill, Frame.fill, convert, convert, h]
  | union before after | inter before after =>
    rw [Frame.fill, Frame.fill, convert, convert, convertAll_eq, convertAll_eq,
      List.flatMap_append, List.flatMap_append, List.flatMap_cons, List.flatMap_cons, h]
  | callableParam | callableResult => rw [Frame.fill, Frame.fill, convert, convert]
  | yes | no => rw [Frame.fill, Frame.fill, convert, convert, h]

theorem convert_fillAt (way : List Frame) {t t' : TypeExpr} (h : ctx.convert t = ctx.convert t') :
    ctx.convert (fillAt way t) = ctx.convert (fillAt way t') := by
  induction way with
  | nil => exact h
  | cons frame way ih => exact convert_frame frame ih

/-- The spelling of nullability does not matter: types, separator and issues are the same for an
annotated and for a native type, and a type is converted to the same alternatives whichever
spelling stands in a slot of it, at any depth. -/
theorem unify_spelling (ctx : TypeContext) (type : TypeExpr) (a b : NullSpelling) :
    ctx.unifyAnnotated (a.write type) = ctx.unifyAnnotated (b.write type) ∧
      ctx.unify none (some (a.write type)) = ctx.unify none (some (b.write type)) ∧
      ∀ (way : List Frame) (slot : Slot),
        ctx.convert (fillAt way (slot.fill (a.write type))) =
          ctx.convert (fillAt way (slot.fill (b.write type))) := by
  have halike : Alike (ctx.convert (a.write type)) (ctx.convert (b.write type)) :=
    (alike_write ctx a type).trans (alike_write ctx b type).symm
  refine ⟨?_, ?_, fun way slot => ?_⟩
  · simp only [unifyAnnotated, halike.compress, halike.absorber, separatorOf_write]
  · have hnative : ctx.unifyNative (a.write type) = ctx.unifyNative (b.write type) := by
      rw [unifyNative, unifyNative, halike.compress, separatorOf_write, separatorOf_write]
    simp only [unify, Option.map_none, Option.map_some, Option.getD_some, hnative]
  · exact convert_fillAt way (convert_slot slot (halike.compress .native))

end TypeContext

end ClassDocs

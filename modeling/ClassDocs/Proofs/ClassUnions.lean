import ClassDocs.Proofs.NullFold
import Mathlib.Data.List.Pairwise
import Mathlib.Data.Set.Insert

/-!
# What the separator says of class types

A type built from class names by unions and intersections says which classes a value has to belong
to. It is shown as one list with one separator, the one of its outermost part. So `(A&B)|C` is
shown as `A|B|C`, which says something else.

The two readings agree exactly if all parts that join anything are joined in the way of the
outermost one (`unify_means_iff`). That this is enough follows part by part. That it is needed
comes from single classes: in a union each class alone has to be enough, in an intersection the
lack of each class alone has to be too much, and a part that is joined in the other way is not
decided by one class (`onlyJoinedBy_of_decides`).
-/

namespace ClassDocs

open TypeRef

variable {ctx : TypeContext}

/-! ## Types built from class names -/

/-- A name that stands for a class. -/
structure ClassName (ctx : TypeContext) where
  text : String
  className : String
  stands : ctx.convertName text = [object className]

/-- The class, whatever the letter case of its name is. -/
def ClassName.key (n : ClassName ctx) : String := Text.lower (object n.className).name

/-- A type built from class names by unions and intersections. -/
inductive ClassTree (ctx : TypeContext) where
  | name (n : ClassName ctx)
  | node (sep : Separator) (first : ClassTree ctx) (rest : List (ClassTree ctx))

namespace ClassTree

mutual

/-- The type as it is written. -/
def toExpr : ClassTree ctx → TypeExpr
  | .name n => .name n.text
  | .node .union first rest => .union (first.toExpr :: toExprs rest)
  | .node .inter first rest => .inter (first.toExpr :: toExprs rest)

/-- Several types as they are written. -/
def toExprs : List (ClassTree ctx) → List TypeExpr
  | [] => []
  | t :: ts => t.toExpr :: toExprs ts

end

mutual

/-- The class names in a type, in order. -/
def names : ClassTree ctx → List (ClassName ctx)
  | .name n => [n]
  | .node _ first rest => first.names ++ namesOf rest

/-- The class names in several types. -/
def namesOf : List (ClassTree ctx) → List (ClassName ctx)
  | [] => []
  | t :: ts => t.names ++ namesOf ts

end

/-- The classes that are named in a type. -/
def keys (tree : ClassTree ctx) : List String := tree.names.map ClassName.key

mutual

/-- Whether a value of some classes is of a type. -/
def Admits (classes : Set String) : ClassTree ctx → Prop
  | .name n => n.key ∈ classes
  | .node .union first rest => first.Admits classes ∨ AnyAdmits classes rest
  | .node .inter first rest => first.Admits classes ∧ AllAdmit classes rest

/-- Whether a value of some classes is of one of several types. -/
def AnyAdmits (classes : Set String) : List (ClassTree ctx) → Prop
  | [] => False
  | t :: ts => t.Admits classes ∨ AnyAdmits classes ts

/-- Whether a value of some classes is of all of several types. -/
def AllAdmit (classes : Set String) : List (ClassTree ctx) → Prop
  | [] => True
  | t :: ts => t.Admits classes ∧ AllAdmit classes ts

end

mutual

/-- All parts that join more than one type are joined by a separator. -/
def OnlyJoinedBy (sep : Separator) : ClassTree ctx → Prop
  | .name _ => True
  | .node s first rest => (rest = [] ∨ s = sep) ∧ first.OnlyJoinedBy sep ∧ AllJoinedBy sep rest

/-- In each of several types all parts are joined by a separator. -/
def AllJoinedBy (sep : Separator) : List (ClassTree ctx) → Prop
  | [] => True
  | t :: ts => t.OnlyJoinedBy sep ∧ AllJoinedBy sep ts

end

/-- All parts are joined as the outermost one is. -/
def Uniform (tree : ClassTree ctx) : Prop :=
  tree.OnlyJoinedBy (TypeContext.separatorOf tree.toExpr)

/-! ## Members of a part -/

theorem toExprs_eq_map (trees : List (ClassTree ctx)) : toExprs trees = trees.map toExpr := by
  induction trees with
  | nil => rfl
  | cons t ts ih => rw [toExprs, ih, List.map_cons]

theorem namesOf_eq_flatMap (trees : List (ClassTree ctx)) :
    namesOf trees = trees.flatMap names := by
  induction trees with
  | nil => rfl
  | cons t ts ih => rw [namesOf, ih, List.flatMap_cons]

theorem anyAdmits_iff {classes : Set String} (trees : List (ClassTree ctx)) :
    AnyAdmits classes trees ↔ ∃ m ∈ trees, m.Admits classes := by
  induction trees with
  | nil => simp [AnyAdmits]
  | cons t ts ih => rw [AnyAdmits, ih, List.exists_mem_cons_iff]

theorem allAdmit_iff {classes : Set String} (trees : List (ClassTree ctx)) :
    AllAdmit classes trees ↔ ∀ m ∈ trees, m.Admits classes := by
  induction trees with
  | nil => simp [AllAdmit]
  | cons t ts ih => rw [AllAdmit, ih, List.forall_mem_cons]

theorem allJoinedBy_iff {sep : Separator} (trees : List (ClassTree ctx)) :
    AllJoinedBy sep trees ↔ ∀ m ∈ trees, m.OnlyJoinedBy sep := by
  induction trees with
  | nil => simp [AllJoinedBy]
  | cons t ts ih => rw [AllJoinedBy, ih, List.forall_mem_cons]

theorem names_node (s : Separator) (first : ClassTree ctx) (rest : List (ClassTree ctx)) :
    (node s first rest).names = (first :: rest).flatMap names := by
  rw [names, namesOf_eq_flatMap, List.flatMap_cons]

theorem keys_node (s : Separator) (first : ClassTree ctx) (rest : List (ClassTree ctx)) :
    (node s first rest).keys = (first :: rest).flatMap keys := by
  rw [keys, names_node, List.map_flatMap]
  rfl

theorem admits_union_iff {classes : Set String} (first : ClassTree ctx)
    (rest : List (ClassTree ctx)) :
    (node .union first rest).Admits classes ↔ ∃ m ∈ first :: rest, m.Admits classes := by
  rw [Admits, anyAdmits_iff, List.exists_mem_cons_iff]

theorem admits_inter_iff {classes : Set String} (first : ClassTree ctx)
    (rest : List (ClassTree ctx)) :
    (node .inter first rest).Admits classes ↔ ∀ m ∈ first :: rest, m.Admits classes := by
  rw [Admits, allAdmit_iff, List.forall_mem_cons]

theorem onlyJoinedBy_node_iff {sep s : Separator} (first : ClassTree ctx)
    (rest : List (ClassTree ctx)) :
    (node s first rest).OnlyJoinedBy sep ↔ (rest = [] ∨ s = sep) ∧
      ∀ m ∈ first :: rest, m.OnlyJoinedBy sep := by
  rw [OnlyJoinedBy, allJoinedBy_iff, List.forall_mem_cons]

mutual

/-- Induction over the members of the parts. -/
theorem byMembers {P : ClassTree ctx → Prop} (name : ∀ n, P (.name n))
    (node : ∀ s first rest, (∀ m ∈ first :: rest, P m) → P (.node s first rest)) : ∀ tree, P tree
  | .name n => name n
  | .node s first rest =>
    node s first rest
      (List.forall_mem_cons.mpr ⟨byMembers name node first, allByMembers name node rest⟩)

theorem allByMembers {P : ClassTree ctx → Prop} (name : ∀ n, P (.name n))
    (node : ∀ s first rest, (∀ m ∈ first :: rest, P m) → P (.node s first rest)) :
    ∀ trees : List (ClassTree ctx), ∀ m ∈ trees, P m
  | [] => fun _ h => nomatch h
  | t :: ts => List.forall_mem_cons.mpr ⟨byMembers name node t, allByMembers name node ts⟩

end

theorem keys_ne_nil (tree : ClassTree ctx) : tree.keys ≠ [] := by
  induction tree using byMembers with
  | name n => exact List.cons_ne_nil _ _
  | node s first rest ih =>
    rw [keys_node, List.flatMap_cons]
    exact List.append_ne_nil_of_left_ne_nil (ih first List.mem_cons_self) _

/-! ## One list with one separator -/

/-- What a list of classes says if they are joined by a separator. -/
def Joined (sep : Separator) (classes : Set String) (keys : List String) : Prop :=
  match sep with
  | .union => ∃ c ∈ keys, c ∈ classes
  | .inter => ∀ c ∈ keys, c ∈ classes

theorem admits_iff_joined {sep : Separator} {classes : Set String} {tree : ClassTree ctx}
    (h : tree.OnlyJoinedBy sep) : tree.Admits classes ↔ Joined sep classes tree.keys := by
  induction tree using byMembers with
  | name n => cases sep <;> simp [Admits, Joined, keys, names]
  | node s first rest ih =>
    obtain ⟨hjoined, hmembers⟩ := (onlyJoinedBy_node_iff first rest).mp h
    have hmember : ∀ m ∈ first :: rest, (m.Admits classes ↔ Joined sep classes m.keys) :=
      fun m hm => ih m hm (hmembers m hm)
    rcases hjoined with rfl | rfl
    · -- a single member is joined to nothing
      have hone : (node s first []).Admits classes ↔ first.Admits classes := by
        cases s <;> simp [Admits, AnyAdmits, AllAdmit]
      rw [hone, hmember first List.mem_cons_self, keys_node, List.flatMap_cons, List.flatMap_nil,
        List.append_nil]
    · rw [keys_node]
      cases s with
      | union =>
        rw [admits_union_iff]
        simp only [Joined, List.mem_flatMap] at hmember ⊢
        constructor
        · rintro ⟨m, hm, hadmits⟩
          obtain ⟨c, hc, hclass⟩ := (hmember m hm).mp hadmits
          exact ⟨c, ⟨m, hm, hc⟩, hclass⟩
        · rintro ⟨c, ⟨m, hm, hc⟩, hclass⟩
          exact ⟨m, hm, (hmember m hm).mpr ⟨c, hc, hclass⟩⟩
      | inter =>
        rw [admits_inter_iff]
        simp only [Joined, List.mem_flatMap] at hmember ⊢
        constructor
        · rintro hadmits c ⟨m, hm, hc⟩
          exact (hmember m hm).mp (hadmits m hm) c hc
        · intro hclass m hm
          exact (hmember m hm).mpr fun c hc => hclass c ⟨m, hm, hc⟩

/-! ## Single classes -/

/-- A single class decides: in a union it is enough, in an intersection nothing makes up for it. -/
def Decides (sep : Separator) (c : String) (tree : ClassTree ctx) : Prop :=
  match sep with
  | .union => tree.Admits {c}
  | .inter => ¬ tree.Admits {c}ᶜ

theorem decides_node_same {sep : Separator} {c : String} (first : ClassTree ctx)
    (rest : List (ClassTree ctx)) :
    (node sep first rest).Decides sep c ↔ ∃ m ∈ first :: rest, m.Decides sep c := by
  cases sep with
  | union => exact admits_union_iff first rest
  | inter =>
    rw [Decides, admits_inter_iff]
    simp only [Decides, not_forall, exists_prop]

theorem decides_node_other {sep s : Separator} (hne : s ≠ sep) {c : String} (first : ClassTree ctx)
    (rest : List (ClassTree ctx)) :
    (node s first rest).Decides sep c ↔ ∀ m ∈ first :: rest, m.Decides sep c := by
  cases sep with
  | union =>
    cases s with
    | union => contradiction
    | inter => exact admits_inter_iff first rest
  | inter =>
    cases s with
    | inter => contradiction
    | union =>
      rw [Decides, admits_union_iff]
      simp only [Decides, not_exists, not_and]

/-- A class that is not named decides nothing. -/
theorem not_decides {sep : Separator} {c : String} {tree : ClassTree ctx} (h : c ∉ tree.keys) :
    ¬ tree.Decides sep c := by
  induction tree using byMembers with
  | name n =>
    have hne : c ≠ n.key := by simpa [keys, names] using h
    cases sep <;> simp [Decides, Admits, hne.symm]
  | node s first rest ih =>
    rw [keys_node] at h
    have hmember : ∀ m ∈ first :: rest, ¬ m.Decides sep c :=
      fun m hm => ih m hm fun hc => h (List.mem_flatMap.mpr ⟨m, hm, hc⟩)
    by_cases hs : s = sep
    · subst hs
      rw [decides_node_same]
      rintro ⟨m, hm, hdecides⟩
      exact hmember m hm hdecides
    · rw [decides_node_other hs]
      exact fun hdecides => hmember first List.mem_cons_self (hdecides first List.mem_cons_self)

/-- In a flat list each class decides. -/
theorem decides_of_joined {sep : Separator} {tree : ClassTree ctx}
    (h : ∀ classes, Joined sep classes tree.keys ↔ tree.Admits classes) {c : String}
    (hc : c ∈ tree.keys) :
    tree.Decides sep c := by
  cases sep with
  | union => exact (h {c}).mp ⟨c, hc, rfl⟩
  | inter => exact fun hadmits => (h {c}ᶜ).mpr hadmits c hc rfl

/-- Where each class decides, all parts are joined in one way: no class of one member decides a
part with several members that is joined in the other way. -/
theorem onlyJoinedBy_of_decides {sep : Separator} {tree : ClassTree ctx} (hnodup : tree.keys.Nodup)
    (h : ∀ c ∈ tree.keys, tree.Decides sep c) : tree.OnlyJoinedBy sep := by
  induction tree using byMembers with
  | name n => trivial
  | node s first rest ih =>
    rw [keys_node] at hnodup h
    obtain ⟨hmembers, hapart⟩ := List.nodup_flatMap.mp hnodup
    have : Std.Symm (Function.onFun List.Disjoint (keys : ClassTree ctx → List String)) :=
      ⟨fun _ _ hd _ ha hb => hd hb ha⟩
    have hmem : ∀ {m c}, m ∈ first :: rest → c ∈ keys m → c ∈ (first :: rest).flatMap keys :=
      fun hm hc => List.mem_flatMap.mpr ⟨_, hm, hc⟩
    rw [onlyJoinedBy_node_iff]
    by_cases hs : s = sep
    · subst hs
      refine ⟨.inr rfl, fun m hm => ih m hm (hmembers m hm) fun c hc => ?_⟩
      obtain ⟨m', hm', hdecides⟩ := (decides_node_same first rest).mp (h c (hmem hm hc))
      have hc' : c ∈ m'.keys := by
        by_contra hnot
        exact not_decides hnot hdecides
      -- no two members name one class, so that it is this member that is decided
      by_cases hsame : m' = m
      · exact hsame ▸ hdecides
      · exact absurd hc (hapart.forall hm' hm hsame hc')
    · have hall : ∀ m ∈ first :: rest, ∀ c ∈ (first :: rest).flatMap keys, m.Decides sep c :=
        fun m hm c hc => (decides_node_other hs first rest).mp (h c hc) m hm
      refine ⟨.inl ?_, fun m hm => ih m hm (hmembers m hm) fun c hc => hall m hm c (hmem hm hc)⟩
      -- a class of the first member would decide the second one too, which does not name it
      obtain ⟨c, hc⟩ := List.exists_mem_of_ne_nil _ first.keys_ne_nil
      cases hrest : rest with
      | nil => rfl
      | cons second others =>
        have hsecond : second ∈ first :: rest := by simp [hrest]
        refine absurd (hall second hsecond c (hmem List.mem_cons_self hc))
          (not_decides fun hc' => ?_)
        exact (List.pairwise_cons.mp hapart).1 second (by simp [hrest]) hc hc'

/-- **One separator is enough** exactly if all parts that join anything are joined by it. -/
theorem joined_iff_onlyJoinedBy {sep : Separator} {tree : ClassTree ctx}
    (hnodup : tree.keys.Nodup) :
    (∀ classes, Joined sep classes tree.keys ↔ tree.Admits classes) ↔ tree.OnlyJoinedBy sep := by
  constructor
  · intro h
    exact onlyJoinedBy_of_decides hnodup fun c hc => decides_of_joined h hc
  · intro h classes
    exact (admits_iff_joined h).symm

end ClassTree

/-! ## The list that is shown -/

/-- Whether a value of some classes is of a resolved class. -/
def TypeRef.Admits (classes : Set String) (t : TypeRef) : Prop :=
  ∃ name ∈ t.className?, Text.lower name ∈ classes

/-- Whether a value of some classes is of a type as it is shown: of one of the types in a union, of
all of them in an intersection. -/
def UnifiedType.Admits (classes : Set String) (unified : UnifiedType) : Prop :=
  match unified.separator with
  | .union => ∃ t ∈ unified.types, t.Admits classes
  | .inter => ∀ t ∈ unified.types, t.Admits classes

namespace ClassTree

open TypeContext

theorem convert_toExpr (tree : ClassTree ctx) :
    ctx.convert tree.toExpr = tree.names.map (object ·.className) := by
  induction tree using byMembers with
  | name n =>
    rw [toExpr, convert]
    exact n.stands
  | node s first rest ih =>
    have hmembers : ctx.convertAll ((first :: rest).map toExpr) = (first :: rest).flatMap fun m =>
        m.names.map (object ·.className) := by
      rw [convertAll_eq, List.flatMap_map]
      exact List.flatMap_congr ih
    have hconvert : ctx.convert (node s first rest).toExpr =
        ctx.convertAll ((first :: rest).map toExpr) := by
      cases s <;> rw [toExpr, convert, toExprs_eq_map, List.map_cons]
    rw [hconvert, hmembers, names_node, List.map_flatMap]

/-- Nothing but repetitions is taken out of a list of classes. -/
theorem mem_compress_convert {source : Source} {tree : ClassTree ctx} {t : TypeRef} :
    t ∈ compress source (ctx.convert tree.toExpr) ↔ ∃ n ∈ tree.names, object n.className = t := by
  have hnull : (ctx.convert tree.toExpr).any (·.isNull) = false := by
    rw [convert_toExpr]
    simp [isNull, object]
  have hcompress : compress source (ctx.convert tree.toExpr) =
      concretes (ctx.convert tree.toExpr) := by
    unfold compress
    rw [hnull, if_neg Bool.false_ne_true]
  rw [hcompress, mem_concretes, convert_toExpr, List.mem_map]
  refine and_iff_left_of_imp ?_
  rintro ⟨n, -, rfl⟩
  rfl

theorem admits_unified_iff {source : Source} {classes : Set String} {tree : ClassTree ctx}
    {sep : Separator} :
    (UnifiedType.mk (compress source (ctx.convert tree.toExpr)) sep).Admits classes ↔
      Joined sep classes tree.keys := by
  have hkey : ∀ n : ClassName ctx, (object n.className).Admits classes ↔ n.key ∈ classes := by
    intro n
    simp [TypeRef.Admits, ClassName.key, object]
  unfold UnifiedType.Admits Joined
  cases sep <;> simp [mem_compress_convert, hkey, keys]

/-- **The meaning of class types.** What is shown for a type built from names of pairwise different
classes, annotated or native, says the same as the type exactly if all parts that join more than
one type are joined as the outermost part is. -/
theorem unify_means_iff (tree : ClassTree ctx) (hnodup : tree.keys.Nodup) (tag : Option Tag)
    (htag : tag.bind Tag.type? = none) :
    ((∀ classes, (ctx.unifyAnnotated tree.toExpr).1.Admits classes ↔ tree.Admits classes) ↔
      tree.Uniform) ∧
      ((∀ classes, (ctx.unify tag (some tree.toExpr)).1.Admits classes ↔ tree.Admits classes) ↔
        tree.Uniform) := by
  have hunify : (ctx.unify tag (some tree.toExpr)).1 = ctx.unifyNative tree.toExpr :=
    unify_of_untyped htag _
  rw [hunify]
  simp only [unifyAnnotated, unifyNative, admits_unified_iff]
  exact ⟨joined_iff_onlyJoinedBy hnodup, joined_iff_onlyJoinedBy hnodup⟩

/-- A scope in which `A`, `B` and `C` are classes. -/
def threeClasses : TypeContext := { scope := {}, root := "Book", owner := "Book::$x" }

/-- `A|(B|C)`: the parts are joined in one way, and the list means what the type does. -/
theorem unify_means_iff_nested :
    let tree : ClassTree threeClasses := .node .union (.name ⟨"A", "A", by decide⟩)
      [.node .union (.name ⟨"B", "B", by decide⟩) [.name ⟨"C", "C", by decide⟩]]
    (tree.keys.Nodup ∧ tree.Uniform) ∧
      (∀ classes, (threeClasses.unifyAnnotated tree.toExpr).1.Admits classes ↔
        tree.Admits classes) ∧
      ∀ classes, (threeClasses.unify none (some tree.toExpr)).1.Admits classes ↔
          tree.Admits classes := by
  intro tree
  have hnodup : tree.keys.Nodup := by decide
  have huniform : tree.Uniform := by
    simp [tree, Uniform, OnlyJoinedBy, AllJoinedBy, toExpr, separatorOf]
  obtain ⟨hannotated, hnative⟩ := unify_means_iff tree hnodup none rfl
  exact ⟨⟨hnodup, huniform⟩, hannotated.mpr huniform, hnative.mpr huniform⟩

/-- `(A&B)|C` is shown as `A|B|C`: a value of class `A` alone is of the one and not of the
other. -/
theorem unify_means_other :
    let tree : ClassTree threeClasses := .node .union
      (.node .inter (.name ⟨"A", "A", by decide⟩) [.name ⟨"B", "B", by decide⟩])
        [.name ⟨"C", "C", by decide⟩]
    tree.keys.Nodup ∧ (threeClasses.unifyAnnotated tree.toExpr).1.Admits {"a"} ∧
      (threeClasses.unify none (some tree.toExpr)).1.Admits {"a"} ∧ ¬ tree.Admits {"a"} := by
  intro tree
  have hshown : ∀ source,
      (UnifiedType.mk (compress source (threeClasses.convert tree.toExpr)) .union).Admits {"a"} :=
    fun source => admits_unified_iff.mpr ⟨"a", by decide, rfl⟩
  refine ⟨by decide, hshown .annotated, hshown .native, ?_⟩
  rintro (⟨-, hb, -⟩ | hc | hnone)
  · exact absurd (Set.mem_singleton_iff.mp hb) (by decide)
  · exact absurd (Set.mem_singleton_iff.mp hc) (by decide)
  · exact hnone

end ClassTree

end ClassDocs

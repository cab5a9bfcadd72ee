import ClassDocs.Proofs.Coherence
import ClassDocs.View.Assemble

/-!
# Views depend on the classes and the links

Assembling a view asks the index many questions, and each may change what the index remembers. Two
lookups *agree* (`Agree`) along a relation of states if from related states they give one and the
same answer and come to related states again. All the steps of the assembly are built from lookups
that agree with themselves, so the whole view does (`classView_agree`), as long as related states
have the same classes and the flattened classes agree (`Coherent`).

The same argument settles the context: it is read for links only, and contexts that are the same
for `==` give the same links although their paths and tables may be written differently. So every
statement here has two contexts, and says that what is built with one agrees with what is built
with the other.
-/

namespace ClassDocs

namespace Index

variable {V : Index → Index → Prop} {α β σ : Type}

/-- From states related by `V` two lookups give the same answer and come to states related by
`V`. -/
def Agree (V : Index → Index → Prop) (m m' : Lookup α) : Prop :=
  ∀ ⦃i i' : Index⦄, V i i' → (m i).1 = (m' i').1 ∧ V (m i).2 (m' i').2

theorem Agree.pure (a : α) : Agree V (pure a) (pure a) := fun _ _ hV => ⟨rfl, hV⟩

theorem Agree.bind {m m' : Lookup α} {f f' : α → Lookup β} (hm : Agree V m m')
    (hf : ∀ a, Agree V (f a) (f' a)) : Agree V (m >>= f) (m' >>= f') := by
  intro i i' hV
  obtain ⟨heq, hV'⟩ := hm hV
  have hrest := hf (m i).1 hV'
  have hright : (m' >>= f') i' = f' (m i).1 (m' i').2 := by
    rw [heq]
    rfl
  rw [hright]
  exact hrest

/-- Lookups that start by looking at the state. -/
theorem Agree.get {f f' : Index → Lookup β} (hf : ∀ i i', V i i' → Agree V (f i) (f' i')) :
    Agree V (get >>= f) (get >>= f') := fun i i' hV => hf i i' hV hV

/-- Two lookups with a state of their own agree, from every such state. -/
def AgreeT (V : Index → Index → Prop) (m m' : StateT σ Lookup α) : Prop :=
  ∀ s, Agree V (m.run s) (m'.run s)

theorem AgreeT.pure (a : α) : AgreeT V (pure a : StateT σ Lookup α) (pure a) :=
  fun s => Agree.pure (a, s)

theorem AgreeT.bind {m m' : StateT σ Lookup α} {f f' : α → StateT σ Lookup β} (hm : AgreeT V m m')
    (hf : ∀ a, AgreeT V (f a) (f' a)) : AgreeT V (m >>= f) (m' >>= f') :=
  fun s => (hm s).bind fun r => hf r.1 r.2

theorem AgreeT.lift {m m' : Lookup α} (h : Agree V m m') :
    AgreeT V (liftM m : StateT σ Lookup α) (liftM m') :=
  fun s => h.bind fun a => Agree.pure (a, s)

theorem AgreeT.modify (f : σ → σ) : AgreeT V (modify f) (modify f) := fun s => Agree.pure ((), f s)

theorem AgreeT.mapM {f f' : α → StateT σ Lookup β} (h : ∀ a, AgreeT V (f a) (f' a)) (l : List α) :
    AgreeT V (l.mapM f) (l.mapM f') := by
  induction l with
  | nil => exact AgreeT.pure []
  | cons a l ih =>
    rw [List.mapM_cons, List.mapM_cons]
    exact (h a).bind fun b => ih.bind fun bs => AgreeT.pure (b :: bs)

/-- Related states have the same classes, and the flattened classes agree. -/
structure Coherent (V : Index → Index → Prop) : Prop where
  classes : ∀ i i', V i i' → i.classes = i'.classes
  bound : ∀ i i', V i i' → i.bound = i'.bound
  describe? : ∀ name, Agree V (Index.describe? name) (Index.describe? name)

/-- A state seen twice: what is kept by flattening is a relation along which flattened classes
agree. -/
theorem coherent_of_ensures {W : Index → Prop}
    (h : ∀ name, Ensures W (Index.describe? name) fun _ => True) :
    Coherent fun i i' => i = i' ∧ W i where
  classes := fun _ _ h => by rw [h.1]
  bound := fun _ _ h => by rw [h.1]
  describe? := by
    rintro name i _ ⟨rfl, hi⟩
    exact ⟨rfl, rfl, (h name i hi).2⟩

/-- A lookup that agrees with itself from a state seen twice keeps what the states have. -/
theorem Agree.ensures {W : Index → Prop} {m : Lookup α}
    (h : Agree (fun i i' => i = i' ∧ W i) m m) :
    Ensures W m fun _ => True :=
  fun _ hi => ⟨trivial, (h ⟨rfl, hi⟩).2.2⟩

/-- Both states are variants of one index. -/
def Variants (ix i i' : Index) : Prop := Variant ix i ∧ Variant ix i'

theorem Answers.agree {ix : Index} {m : Lookup α} {a : α} (h : Answers ix m a) :
    Agree (Variants ix) m m := by
  rintro i i' ⟨hi, hi'⟩
  obtain ⟨heq, hv⟩ := h i hi
  obtain ⟨heq', hv'⟩ := h i' hi'
  exact ⟨heq.trans heq'.symm, hv, hv'⟩

/-- The states in which an index can be while its table stays the same. -/
theorem coherent_variants {ix : Index} (hu : Unmapped ix) (hapart : Apart ix.classes) :
    Coherent (Variants ix) where
  classes := fun _ _ h => h.1.classes.trans h.2.classes.symm
  bound := fun _ _ h => h.1.bound.trans h.2.bound.symm
  describe? := fun name => (describe?_answers hu hapart name).agree

end Index

open Index

variable {V : Index → Index → Prop} {ctx ctx' : LinkContext}

/-! ## Links -/

theorem LinkContext.same_iff : ctx.same ctx' = true ↔
    ctx.rootSpace = ctx'.rootSpace ∧ Path.components ctx.rootPath = Path.components ctx'.rootPath ∧
      ctx.baseUrl = ctx'.baseUrl ∧ ctx.exclude = ctx'.exclude ∧
        ctx.thirdParty.sorted = ctx'.thirdParty.sorted := by
  simp [LinkContext.same, Path.same, and_assoc]

theorem LinkContext.same_refl (ctx : LinkContext) : ctx.same ctx = true := by
  simp [LinkContext.same_iff]

/-- Contexts that are the same give the same links. -/
theorem linkOf_congr (h : ctx.same ctx' = true) (name : String) :
    linkOf ctx name = linkOf ctx' name := by
  obtain ⟨hspace, hpath, hurl, hexclude, hparties⟩ := LinkContext.same_iff.mp h
  unfold linkOf LinkContext.isLocal LinkContext.isExcluded LinkContext.pageUrl?
    LinkContext.thirdPartyUrl? Path.below?
  rw [hspace, hpath, hurl, hexclude, hparties]

/-! ## Inherited documentation -/

section Inherit

open Inherit

variable {find : Nat → String → SearchM (Option ResolvedDoc)}

theorem resolveWith_agree (hfind : ∀ depth name, AgreeT V (find depth name) (find depth name))
    (depth : Nat) (name : String) (subject : Subject) (doc : Docblock) :
    AgreeT V (resolveWith find depth name subject doc)
      (resolveWith find depth name subject doc) := by
  unfold resolveWith
  split
  · exact AgreeT.pure _
  · dsimp only
    split
    · refine (hfind _ _).bind fun ancestor => ?_
      cases ancestor with
      | some found => exact AgreeT.pure _
      | none => exact (AgreeT.modify _).bind fun _ => AgreeT.pure _
    · rw [pure_bind]
      exact (AgreeT.modify _).bind fun _ => AgreeT.pure _

theorem visit_agree (name : String) : AgreeT V (visit name) (visit name) := by
  intro s
  unfold visit
  simp only [StateT.run]
  split <;> exact Agree.pure _

theorem firstOf_agree {tryOne : String → SearchM (Option ResolvedDoc)}
    (h : ∀ name, AgreeT V (tryOne name) (tryOne name)) (names : List String) :
    AgreeT V (firstOf tryOne names) (firstOf tryOne names) := by
  induction names with
  | nil => exact AgreeT.pure _
  | cons name names ih =>
    refine (h name).bind fun found => ?_
    cases found with
    | some _ => exact AgreeT.pure _
    | none => exact ih

variable (hV : Coherent V)

include hV

theorem tryAncestor_agree (hfind : ∀ depth name, AgreeT V (find depth name) (find depth name))
    (depth : Nat) (subject : Subject) (name : String) :
    AgreeT V (tryAncestor parseAfresh find depth subject name)
      (tryAncestor parseAfresh find depth subject name) := by
  refine (visit_agree name).bind fun seen => ?_
  split
  · exact AgreeT.pure _
  · refine (AgreeT.lift (hV.describe? name)).bind fun found => ?_
    cases found with
    | none => exact AgreeT.pure _
    | some ancestor =>
      dsimp only
      split
      · exact AgreeT.pure _
      · refine (AgreeT.lift (Agree.pure _)).bind fun doc => ?_
        exact (resolveWith_agree hfind _ _ _ _).bind fun _ => AgreeT.pure _
      · exact hfind _ _

theorem findAbove_agree (subject : Subject) (bound : Nat) :
    ∀ (depth : Nat) (name : String),
      AgreeT V (findAbove parseAfresh subject bound depth name)
        (findAbove parseAfresh subject bound depth name) := by
  induction bound with
  | zero => intro depth name; exact AgreeT.pure _
  | succ bound ih =>
    intro depth name
    refine (AgreeT.lift (hV.describe? name)).bind fun found => ?_
    cases found with
    | none => exact AgreeT.pure _
    | some c => exact firstOf_agree (fun name => tryAncestor_agree hV ih depth subject name) _

/-- The documentation of a subject depends on the classes only. -/
theorem resolve_agree (name : String) (subject : Subject) (comment : Option String) :
    Agree V (resolve name subject comment) (resolve name subject comment) := by
  cases comment with
  | none => exact Agree.pure _
  | some raw =>
    rw [resolve_some]
    refine Agree.get fun i i' hstates => ?_
    rw [hV.bound i i' hstates]
    exact (resolveWith_agree (findAbove_agree hV subject _) _ _ _ _ _).bind fun r => Agree.pure _

end Inherit

/-! ## Types and members -/

namespace Draft

open Inherit

theorem noting_agree {α : Type} (result : α × List Issue) :
    AgreeT V (noting result) (noting result) :=
  (AgreeT.modify _).bind fun _ => AgreeT.pure _

theorem linkOfType_of_links (hlink : ∀ name, Agree V (linkOf ctx name) (linkOf ctx' name))
    (t : TypeRef) : Agree V (linkOfType ctx t) (linkOfType ctx' t) := by
  unfold linkOfType
  split
  · exact Agree.pure none
  · split
    · exact hlink _
    · exact Agree.pure none

mutual

/-- A type is drawn alike if all links are. -/
theorem typeView_of_links (hlink : ∀ name, Agree V (linkOf ctx name) (linkOf ctx' name)) :
    ∀ t : TypeRef, Agree V (typeView ctx t) (typeView ctx' t)
  | ⟨kind, name, nullable, className?, isCollection, keys, values, description⟩ => by
    unfold typeView
    refine (typeViews_of_links hlink keys).bind fun _ => ?_
    refine (typeViews_of_links hlink values).bind fun _ => ?_
    exact (linkOfType_of_links hlink _).bind fun _ => Agree.pure _

theorem typeViews_of_links (hlink : ∀ name, Agree V (linkOf ctx name) (linkOf ctx' name)) :
    ∀ ts : List TypeRef, Agree V (typeViews ctx ts) (typeViews ctx' ts)
  | [] => Agree.pure []
  | t :: ts => by
    unfold typeViews
    exact (typeView_of_links hlink t).bind fun _ =>
      (typeViews_of_links hlink ts).bind fun _ => Agree.pure _

end

variable (hV : Coherent V)

include hV

theorem memberDoc_agree (m : Member) (kind : MemberKind) :
    AgreeT V (Site.memberDoc parseAfresh m kind) (Site.memberDoc parseAfresh m kind) :=
  (AgreeT.lift (resolve_agree hV _ _ _)).bind fun _ => noting_agree _

theorem constructorDoc_agree (m : Option Method) :
    AgreeT V (constructorDoc parseAfresh m) (constructorDoc parseAfresh m) := by
  cases m with
  | none => exact AgreeT.pure _
  | some m => exact (memberDoc_agree hV _ _).bind fun _ => AgreeT.pure _

variable (h : ctx.same ctx' = true)

include h

theorem linkOf_agree (name : String) : Agree V (linkOf ctx name) (linkOf ctx' name) := by
  rw [← linkOf_congr h]
  unfold linkOf
  dsimp only
  split
  · split
    · exact Agree.pure _
    · exact (hV.describe? _).bind fun _ => Agree.pure _
  · refine Agree.get fun i i' hstates => ?_
    have hinternal : i.isInternal (Name.withoutRoot name) =
        i'.isInternal (Name.withoutRoot name) := by
      simp only [Index.isInternal, hV.classes i i' hstates]
    rw [hinternal]
    split <;> exact Agree.pure _

theorem typeViews_agree (ts : List TypeRef) : Agree V (typeViews ctx ts) (typeViews ctx' ts) :=
  typeViews_of_links (linkOf_agree hV h) ts

/-- A unified type with its links, noted issues included. -/
theorem typeList_agree (unified : UnifiedType) :
    AgreeT V (typeList ctx unified) (typeList ctx' unified) :=
  (AgreeT.lift (typeViews_agree hV h _)).bind fun _ => AgreeT.pure _

theorem constantView_agree (decl : ClassDecl) (templates : List String) (c : Constant) :
    AgreeT V (constantView parseAfresh ⟨ctx, decl, templates⟩ c)
      (constantView parseAfresh ⟨ctx', decl, templates⟩ c) := by
  refine (memberDoc_agree hV _ _).bind fun resolved => ?_
  refine (noting_agree _).bind fun unified => ?_
  exact (typeList_agree hV h unified).bind fun _ => AgreeT.pure _

theorem propertyView_agree (decl : ClassDecl) (templates : List String)
    (constructorDoc : Option ResolvedDoc) (p : Property) :
    AgreeT V (propertyView parseAfresh ⟨ctx, decl, templates⟩ constructorDoc p)
      (propertyView parseAfresh ⟨ctx', decl, templates⟩ constructorDoc p) := by
  refine (memberDoc_agree hV _ _).bind fun resolved => ?_
  refine (noting_agree _).bind fun unified => ?_
  exact (typeList_agree hV h unified).bind fun _ => AgreeT.pure _

theorem parameterView_agree (types : TypeContext) (resolved : ResolvedDoc) (p : Parameter) :
    AgreeT V (parameterView ctx types resolved p) (parameterView ctx' types resolved p) := by
  refine (noting_agree _).bind fun unified => ?_
  exact (typeList_agree hV h unified).bind fun _ => AgreeT.pure _

theorem thrownViews_agree (types : TypeContext) (tags : List Tag) :
    ∀ seen : List (List String),
      AgreeT V (thrownViews ctx types seen tags) (thrownViews ctx' types seen tags) := by
  induction tags with
  | nil => intro seen; exact AgreeT.pure _
  | cons tag tags ih =>
    intro seen
    unfold thrownViews
    split
    · exact ih seen
    · exact (AgreeT.modify _).bind fun _ => ih seen
    · refine (noting_agree _).bind fun unified => ?_
      dsimp only
      split
      · exact ih seen
      · exact (AgreeT.lift (typeViews_agree hV h _)).bind fun _ =>
          (ih _).bind fun _ => AgreeT.pure _

theorem methodView_agree (decl : ClassDecl) (templates : List String) (m : Method)
    (resolved : ResolvedDoc) :
    AgreeT V (methodView ⟨ctx, decl, templates⟩ m resolved)
      (methodView ⟨ctx', decl, templates⟩ m resolved) := by
  refine (AgreeT.mapM (fun p => parameterView_agree hV h _ resolved p) _).bind fun parameters => ?_
  refine (noting_agree _).bind fun result => ?_
  refine (thrownViews_agree hV h _ _ _).bind fun throws => ?_
  exact (typeList_agree hV h result).bind fun _ => AgreeT.pure _

theorem backingViews_agree (decl : ClassDecl) (templates : List String)
    (backing : Option TypeExpr) :
    AgreeT V (backingViews ⟨ctx, decl, templates⟩ backing)
      (backingViews ⟨ctx', decl, templates⟩ backing) := by
  cases backing with
  | none => exact AgreeT.pure _
  | some type =>
    refine (noting_agree _).bind fun unified => ?_
    exact (typeList_agree hV h unified).bind fun _ => AgreeT.pure _

theorem constructorView_agree (decl : ClassDecl) (templates : List String) (m : Option Method)
    (resolved : Option ResolvedDoc) :
    AgreeT V (constructorView ⟨ctx, decl, templates⟩ m resolved)
      (constructorView ⟨ctx', decl, templates⟩ m resolved) := by
  unfold constructorView
  split
  · exact (methodView_agree hV h _ _ _ _).bind fun _ => AgreeT.pure _
  · exact AgreeT.pure _

/-- **A view depends on the classes and the links of its context only.** -/
theorem classView_agree (c : ClassDecl) (parent : Option ClassView) :
    AgreeT V (classView ctx c parent) (classView ctx' c parent) := by
  refine (AgreeT.lift (resolve_agree hV _ _ _)).bind fun found => ?_
  refine (noting_agree found).bind fun resolved => ?_
  refine (AgreeT.lift (typeViews_agree hV h _)).bind fun interfaces => ?_
  refine (AgreeT.lift (typeViews_agree hV h _)).bind fun traits => ?_
  refine (backingViews_agree hV h c _ _).bind fun backing => ?_
  refine (AgreeT.mapM (fun m => constantView_agree hV h c _ m) _).bind fun constants => ?_
  refine (constructorDoc_agree hV _).bind fun constructorDoc => ?_
  refine (AgreeT.mapM (fun m => propertyView_agree hV h c _ constructorDoc m) _).bind
    fun properties => ?_
  refine (constructorView_agree hV h c _ _ _).bind fun constructor => ?_
  refine (AgreeT.mapM (fun m => ?_) _).bind fun methods => ?_
  · exact (memberDoc_agree hV _ _).bind fun _ => methodView_agree hV h c _ m _
  · exact (AgreeT.lift (linkOf_agree hV h _)).bind fun _ => AgreeT.pure _

end Draft

end ClassDocs

import ClassDocs.Docblock.Cache
import ClassDocs.View.Assemble

/-!
# Views with parsed comments kept

A view is assembled with a parser of comments that may have a state. With the parser that keeps
what it has parsed the view is the same as with one that parses every comment anew
(`classViewBy_mirrors`), whatever is in the cache: the cache holds only what the parser gives, so
no answer depends on it.

A lookup with a cache *mirrors* one without (`Mirrors`) if from every cache it gives the same
answer and leaves the index the same. Each step of the assembly mirrors itself, so the whole
assembly does.
-/

namespace ClassDocs

variable {α β σ : Type}

/-- From every cache a lookup gives what another gives without. -/
def Mirrors (x : Caching α) (y : Lookup α) : Prop := ∀ cache, x.run' cache = y

theorem Mirrors.pure (a : α) : Mirrors (pure a) (pure a) := fun _ => rfl

theorem Mirrors.bind {x : Caching α} {y : Lookup α} {f : α → Caching β} {g : α → Lookup β}
    (hx : Mirrors x y) (hf : ∀ a, Mirrors (f a) (g a)) : Mirrors (x >>= f) (y >>= g) := by
  intro cache
  calc (x >>= f).run' cache
      = x.run cache >>= fun r => (f r.1).run' r.2 := by
        simp only [StateT.run'_eq, StateT.run_bind, map_bind]
    _ = x.run cache >>= fun r => g r.1 := by simp only [hf _ _]
    _ = x.run' cache >>= g := by rw [StateT.run'_eq, bind_map_left]
    _ = y >>= g := by rw [hx cache]

theorem Mirrors.lift (y : Lookup α) : Mirrors (liftM y) y := by
  intro cache
  show (·.1) <$> (y >>= fun a => Pure.pure (a, cache)) = y
  simp

/-- The cache answers what the parser gives. -/
theorem parseOnce_mirrors (raw : String) : Mirrors (parseOnce raw) (Inherit.parseAfresh raw) := by
  intro cache
  cases hfound : cache.docs.find? raw with
  | none =>
    simp only [parseOnce, StateT.run'_eq, StateT.run_bind, StateT.run_get, pure_bind, hfound]
    rfl
  | some doc =>
    simp only [parseOnce, StateT.run'_eq, StateT.run_bind, StateT.run_get, pure_bind, hfound]
    rw [cache.sound raw doc hfound]
    rfl

/-- A lookup with a state of its own mirrors another, from every such state. -/
def MirrorsT (x : StateT σ Caching α) (y : StateT σ Lookup α) : Prop :=
  ∀ s, Mirrors (x.run s) (y.run s)

theorem MirrorsT.pure (a : α) : MirrorsT (pure a : StateT σ Caching α) (pure a) :=
  fun s => Mirrors.pure (a, s)

theorem MirrorsT.bind {x : StateT σ Caching α} {y : StateT σ Lookup α} {f : α → StateT σ Caching β}
    {g : α → StateT σ Lookup β} (hx : MirrorsT x y) (hf : ∀ a, MirrorsT (f a) (g a)) :
    MirrorsT (x >>= f) (y >>= g) :=
  fun s => (hx s).bind fun r => hf r.1 r.2

theorem MirrorsT.lift {x : Caching α} {y : Lookup α} (h : Mirrors x y) :
    MirrorsT (liftM x : StateT σ Caching α) (liftM y) :=
  fun s => h.bind fun a => Mirrors.pure (a, s)

theorem MirrorsT.ask (y : Lookup α) : MirrorsT (liftM y : StateT σ Caching α) (liftM y) :=
  MirrorsT.lift (Mirrors.lift y)

theorem MirrorsT.modify (f : σ → σ) : MirrorsT (modify f) (modify f) :=
  fun s => Mirrors.pure ((), f s)

theorem MirrorsT.mapM {f : α → StateT σ Caching β} {g : α → StateT σ Lookup β}
    (h : ∀ a, MirrorsT (f a) (g a)) (l : List α) : MirrorsT (l.mapM f) (l.mapM g) := by
  induction l with
  | nil => exact MirrorsT.pure []
  | cons a l ih =>
    rw [List.mapM_cons, List.mapM_cons]
    exact (h a).bind fun b => ih.bind fun bs => MirrorsT.pure (b :: bs)

/-! ## Inherited documentation -/

namespace Inherit

variable {find : Nat → String → SearchT Caching (Option ResolvedDoc)}
  {find' : Nat → String → SearchM (Option ResolvedDoc)}

theorem resolveWith_mirrors (hfind : ∀ depth name, MirrorsT (find depth name) (find' depth name))
    (depth : Nat) (className : String) (subject : Subject) (doc : Docblock) :
    MirrorsT (resolveWith find depth className subject doc)
      (resolveWith find' depth className subject doc) := by
  unfold resolveWith
  split
  · exact MirrorsT.pure _
  · dsimp only
    split
    · refine (hfind _ _).bind fun ancestor => ?_
      cases ancestor with
      | some found => exact MirrorsT.pure _
      | none => exact (MirrorsT.modify _).bind fun _ => MirrorsT.pure _
    · rw [pure_bind, pure_bind]
      exact (MirrorsT.modify _).bind fun _ => MirrorsT.pure _

theorem visit_mirrors (name : String) : MirrorsT (visit name) (visit name) := by
  intro s
  unfold visit
  simp only [StateT.run]
  split <;> exact Mirrors.pure _

theorem tryAncestor_mirrors (hfind : ∀ depth name, MirrorsT (find depth name) (find' depth name))
    (depth : Nat) (subject : Subject) (name : String) :
    MirrorsT (tryAncestor parseOnce find depth subject name)
      (tryAncestor parseAfresh find' depth subject name) := by
  refine (visit_mirrors name).bind fun met => ?_
  split
  · exact MirrorsT.pure _
  · refine (MirrorsT.ask _).bind fun described => ?_
    cases described with
    | none => exact MirrorsT.pure _
    | some ancestor =>
      dsimp only
      split
      · exact MirrorsT.pure _
      · refine (MirrorsT.lift (parseOnce_mirrors _)).bind fun doc => ?_
        exact (resolveWith_mirrors hfind _ _ _ _).bind fun _ => MirrorsT.pure _
      · exact hfind _ _

theorem firstOf_mirrors {tryOne : String → SearchT Caching (Option ResolvedDoc)}
    {tryOne' : String → SearchM (Option ResolvedDoc)}
    (h : ∀ name, MirrorsT (tryOne name) (tryOne' name)) (names : List String) :
    MirrorsT (firstOf tryOne names) (firstOf tryOne' names) := by
  induction names with
  | nil => exact MirrorsT.pure _
  | cons name names ih =>
    refine (h name).bind fun found => ?_
    cases found with
    | some _ => exact MirrorsT.pure _
    | none => exact ih

theorem findAbove_mirrors (subject : Subject) (bound : Nat) : ∀ (depth : Nat) (className : String),
    MirrorsT (findAbove parseOnce subject bound depth className)
      (findAbove parseAfresh subject bound depth className) := by
  induction bound with
  | zero => intro depth className; exact MirrorsT.pure _
  | succ bound ih =>
    intro depth className
    refine (MirrorsT.ask _).bind fun described => ?_
    cases described with
    | none => exact MirrorsT.pure _
    | some c => exact firstOf_mirrors (tryAncestor_mirrors ih depth subject) _

/-- **Documentation does not depend on what was parsed before.** -/
theorem resolveBy_mirrors (className : String) (subject : Subject) (comment : Option String) :
    Mirrors (resolveBy parseOnce className subject comment)
      (resolveBy parseAfresh className subject comment) := by
  cases comment with
  | none => exact Mirrors.pure _
  | some raw =>
    refine (Mirrors.lift _).bind fun ix => ?_
    refine (parseOnce_mirrors raw).bind fun doc => ?_
    exact (resolveWith_mirrors (findAbove_mirrors subject _) _ _ _ _ _).bind fun _ =>
      Mirrors.pure _

end Inherit

/-! ## Members and classes -/

namespace Draft

open Inherit

theorem noting_mirrors (result : α × List Issue) : MirrorsT (noting result) (noting result) :=
  (MirrorsT.modify _).bind fun _ => MirrorsT.pure _

theorem typeList_mirrors (ctx : LinkContext) (unified : UnifiedType) :
    MirrorsT (typeList ctx unified) (typeList ctx unified) :=
  (MirrorsT.ask _).bind fun _ => MirrorsT.pure _

theorem memberDoc_mirrors (m : Member) (kind : MemberKind) :
    MirrorsT (Site.memberDoc parseOnce m kind) (Site.memberDoc parseAfresh m kind) :=
  (MirrorsT.lift (resolveBy_mirrors _ _ _)).bind fun _ => noting_mirrors _

theorem constantView_mirrors (site : Site) (c : Constant) :
    MirrorsT (constantView parseOnce site c) (constantView parseAfresh site c) := by
  refine (memberDoc_mirrors _ _).bind fun resolved => ?_
  refine (noting_mirrors _).bind fun unified => ?_
  exact (typeList_mirrors _ unified).bind fun _ => MirrorsT.pure _

theorem propertyView_mirrors (site : Site) (constructorDoc : Option ResolvedDoc) (p : Property) :
    MirrorsT (propertyView parseOnce site constructorDoc p)
      (propertyView parseAfresh site constructorDoc p) := by
  refine (memberDoc_mirrors _ _).bind fun resolved => ?_
  refine (noting_mirrors _).bind fun unified => ?_
  exact (typeList_mirrors _ unified).bind fun _ => MirrorsT.pure _

theorem parameterView_mirrors (ctx : LinkContext) (types : TypeContext) (resolved : ResolvedDoc)
    (p : Parameter) :
    MirrorsT (parameterView ctx types resolved p) (parameterView ctx types resolved p) := by
  refine (noting_mirrors _).bind fun unified => ?_
  exact (typeList_mirrors _ unified).bind fun _ => MirrorsT.pure _

theorem thrownViews_mirrors (ctx : LinkContext) (types : TypeContext) (tags : List Tag) :
    ∀ seen : List (List String),
      MirrorsT (thrownViews ctx types seen tags) (thrownViews ctx types seen tags) := by
  induction tags with
  | nil => intro seen; exact MirrorsT.pure _
  | cons tag tags ih =>
    intro seen
    unfold thrownViews
    split
    · exact ih seen
    · exact (MirrorsT.modify _).bind fun _ => ih seen
    · refine (noting_mirrors _).bind fun unified => ?_
      dsimp only
      split
      · exact ih seen
      · exact (MirrorsT.ask _).bind fun _ => (ih _).bind fun _ => MirrorsT.pure _

theorem methodView_mirrors (site : Site) (m : Method) (resolved : ResolvedDoc) :
    MirrorsT (methodView site m resolved) (methodView site m resolved) := by
  refine (MirrorsT.mapM (parameterView_mirrors _ _ resolved) _).bind fun parameters => ?_
  refine (noting_mirrors _).bind fun result => ?_
  refine (thrownViews_mirrors _ _ _ _).bind fun throws => ?_
  exact (typeList_mirrors _ result).bind fun _ => MirrorsT.pure _

theorem backingViews_mirrors (site : Site) (backing : Option TypeExpr) :
    MirrorsT (backingViews site backing) (backingViews site backing) := by
  cases backing with
  | none => exact MirrorsT.pure _
  | some type =>
    refine (noting_mirrors _).bind fun unified => ?_
    exact (typeList_mirrors _ unified).bind fun _ => MirrorsT.pure _

theorem constructorDoc_mirrors (m : Option Method) :
    MirrorsT (constructorDoc parseOnce m) (constructorDoc parseAfresh m) := by
  cases m with
  | none => exact MirrorsT.pure _
  | some m => exact (memberDoc_mirrors _ _).bind fun _ => MirrorsT.pure _

theorem constructorView_mirrors (site : Site) (m : Option Method) (resolved : Option ResolvedDoc) :
    MirrorsT (constructorView site m resolved) (constructorView site m resolved) := by
  unfold constructorView
  split
  · exact (methodView_mirrors _ _ _).bind fun _ => MirrorsT.pure _
  · exact MirrorsT.pure _

/-- **A view does not depend on what was parsed before.** -/
theorem classViewBy_mirrors (ctx : LinkContext) (c : ClassDecl) (parent : Option ClassView) :
    MirrorsT (classViewBy parseOnce ctx c parent) (classView ctx c parent) := by
  refine (MirrorsT.lift (resolveBy_mirrors _ _ _)).bind fun found => ?_
  refine (noting_mirrors found).bind fun resolved => ?_
  refine (MirrorsT.ask _).bind fun interfaces => (MirrorsT.ask _).bind fun traits => ?_
  refine (backingViews_mirrors _ _).bind fun backing => ?_
  refine (MirrorsT.mapM (constantView_mirrors _) _).bind fun constants => ?_
  refine (constructorDoc_mirrors _).bind fun constructorDoc => ?_
  refine (MirrorsT.mapM (propertyView_mirrors _ constructorDoc) _).bind fun properties => ?_
  refine (constructorView_mirrors _ _ _).bind fun constructor => ?_
  refine (MirrorsT.mapM (fun m => ?_) _).bind fun methods => ?_
  · exact (memberDoc_mirrors _ _).bind fun _ => methodView_mirrors _ m _
  · exact (MirrorsT.ask _).bind fun _ => MirrorsT.pure _

end Draft

end ClassDocs

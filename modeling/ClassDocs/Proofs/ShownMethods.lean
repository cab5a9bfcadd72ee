import ClassDocs.Proofs.Distinct

/-!
# No visible method is lost

A view has three places for a method: the constructor by itself, the accessors at their properties,
and the list of all others. What is left out of the list because it is an accessor is decided by
the properties that are shown, and whether a private property is shown is decided by its accessors.
The two fit together as long as no two methods of the flattened class have the same name in any
letter case: then a name that is an accessor's is the name of that one method, and every method of
the class itself that is not private is at exactly one of the three places (`Drawn.showsEach`).
Whatever the names are, nothing else is shown (`Drawn.showsOnly`).

Between a class and its flattened form there is the memory of the index once more
(`describe?_distinctOf`): a form that is remembered from a body that is gone may repeat a name that
the declaration does not, and then a method is missing from the view
(`missing_method_of_redeclared`).
-/

namespace ClassDocs

/-! ## The places of a method -/

/-- Where a view shows a method. -/
inductive MethodPlace where
  /-- By itself. -/
  | constructor
  /-- Among the methods. -/
  | list
  /-- At a property. -/
  | accessor
  deriving DecidableEq, Repr

/-- A view shows a method: under its name, with its modifiers and parameters, and with the trait it
comes from. -/
structure MethodView.Depicts (w : MethodView) (m : Method) : Prop where
  name : w.name = m.name
  visibility : w.visibility = m.modifiers.visibility
  isStatic : w.isStatic = m.modifiers.isStatic
  isAbstract : w.isAbstract = m.modifiers.isAbstract
  isFinal : w.isFinal = m.modifiers.isFinal
  parameters : w.parameters.map (·.name) = m.parameters.map (·.name)
  fromTrait : w.fromTrait = Draft.traitOf m.toMember

namespace ClassView

/-- A class view shows a method at a place. -/
def ShowsAt (v : ClassView) (m : Method) : MethodPlace → Prop
  | .constructor => ∃ w, v.constructor? = some w ∧ w.Depicts m
  | .list => ∃ w ∈ v.methods, w.Depicts m
  | .accessor => ∃ p ∈ v.properties, m.name ∈ p.accessors

/-- Every method of the class itself that is not private is at one place, and no method is listed
twice. -/
structure ShowsEach (v : ClassView) (d : ClassDecl) : Prop where
  place : ∀ m ∈ d.methods, m.origin ≠ .inherited → m.modifiers.visibility ≠ .priv →
    ∃! place, v.ShowsAt m place
  once : (v.methods.map fun w => Text.lower w.name).Nodup

/-- What is listed, and what is named as an accessor, is a method of the class itself. -/
structure ShowsOnly (v : ClassView) (d : ClassDecl) : Prop where
  list : ∀ w ∈ v.methods, ∃ m ∈ d.methods, m.origin ≠ .inherited ∧ w.Depicts m
  accessor : ∀ p ∈ v.properties, ∀ a ∈ p.accessors, ∃ m ∈ d.methods,
    m.origin ≠ .inherited ∧ m.name = a

/-- What a view takes from the methods of a flattened class. -/
structure Drawn (v : ClassView) (d : ClassDecl) : Prop where
  constructor : Option.Rel MethodView.Depicts v.constructor?
    (d.constructor?.filter (·.origin != .inherited))
  methods : List.Forall₂ MethodView.Depicts v.methods d.listedMethods
  accessors : v.properties.map (·.accessors) =
    (d.properties.filter fun p => d.isIncluded (.property p)).map fun p => d.accessorsFor p.name

end ClassView

/-! ## Accessors -/

namespace ClassDecl

variable {c : ClassDecl} {m : Method}

/-- No two methods have the same name in any letter case. -/
def DistinctMethods (c : ClassDecl) : Prop := (c.methods.map fun m => Text.lower m.name).Nodup

instance (c : ClassDecl) : Decidable c.DistinctMethods :=
  inferInstanceAs (Decidable (List.Nodup _))

theorem distinctMethods_iff (c : ClassDecl) : c.DistinctMethods ↔ c.DistinctOf .method := by
  rw [DistinctMethods, DistinctOf, List.Nodup, List.pairwise_map, membersOf, List.pairwise_map]
  rfl

theorem DistinctMethods.eq_of_name (h : c.DistinctMethods) {m m' : Method} (hm : m ∈ c.methods)
    (hm' : m' ∈ c.methods) (hname : Text.lower m.name = Text.lower m'.name) : m = m' :=
  List.inj_on_of_nodup_map h hm hm' hname

/-- An accessor is a method of the class itself, under a name that starts with an accessor word. -/
theorem exists_of_mem_accessorsFor {property a : String} (h : a ∈ c.accessorsFor property) :
    ∃ m ∈ c.methods, m.origin ≠ .inherited ∧ m.name = a ∧
      ∃ word ∈ accessorWords, Text.lower m.name =
        Text.lower (word ++ Text.capitalize property) := by
  obtain ⟨word, hword, hfind⟩ := List.mem_filterMap.mp h
  obtain ⟨m, hm, hname⟩ := Option.map_eq_some_iff.mp hfind
  have htest := List.find?_some hm
  rw [Bool.and_eq_true, bne_iff_ne, Text.sameName_iff] at htest
  exact ⟨m, List.mem_of_find?_eq_some hm, htest.1, hname, word, hword, htest.2⟩

/-- No accessor is a constructor: their names start with different letters. -/
theorem not_isConstructor_of_accessor {word rest : String} (hword : word ∈ accessorWords)
    (hname : Text.lower m.name = Text.lower (word ++ rest)) : m.isConstructor = false := by
  rw [Method.isConstructor, Text.sameName, hname, beq_eq_false_iff_ne]
  intro heq
  have hlist := congrArg String.toList heq
  simp only [Text.lower, String.toList_ofList, String.toList_append, List.map_append] at hlist
  simp only [accessorWords, List.mem_cons, List.not_mem_nil, or_false] at hword
  rcases hword with rfl | rfl | rfl <;> exact absurd (List.cons.inj hlist).1 (by decide)

/-- Some property that is shown has the method as an accessor. -/
def AccessedBy (c : ClassDecl) (m : Method) : Prop :=
  ∃ p ∈ c.properties, c.isIncluded (.property p) = true ∧ m.name ∈ c.accessorsFor p.name

/-- A method under the name of an accessor is that accessor. -/
theorem DistinctMethods.mem_accessorNames (h : c.DistinctMethods) (hm : m ∈ c.methods) :
    Text.lower m.name ∈ c.accessorNames ↔ c.AccessedBy m := by
  simp only [accessorNames, List.mem_flatMap, List.mem_filter, List.mem_map]
  constructor
  · rintro ⟨p, ⟨hp, hshown⟩, a, ha, hname⟩
    obtain ⟨m', hm', -, rfl, -⟩ := exists_of_mem_accessorsFor ha
    rw [h.eq_of_name hm' hm hname] at ha
    exact ⟨p, hp, hshown, ha⟩
  · rintro ⟨p, hp, hshown, ha⟩
    exact ⟨p, ⟨hp, hshown⟩, m.name, ha, rfl⟩

theorem AccessedBy.not_isConstructor (h : c.AccessedBy m) : m.isConstructor = false := by
  obtain ⟨p, -, -, ha⟩ := h
  obtain ⟨m', -, -, hname, word, hword, hlower⟩ := exists_of_mem_accessorsFor ha
  rw [hname] at hlower
  exact not_isConstructor_of_accessor hword hlower

/-- The constructor of a class is the one method that is a constructor. -/
theorem DistinctMethods.constructor?_eq (h : c.DistinctMethods) (hm : m ∈ c.methods)
    (hctor : m.isConstructor = true) :
    c.constructor? = some m := by
  cases hfind : c.constructor? with
  | none => exact absurd hctor (List.find?_eq_none.mp hfind m hm)
  | some m' =>
    have hctor' : m'.isConstructor = true := List.find?_some hfind
    have hname : Text.lower m'.name = Text.lower m.name := by
      rw [(Text.sameName_iff _ _).mp hctor', (Text.sameName_iff _ _).mp hctor]
    rw [h.eq_of_name (List.mem_of_find?_eq_some hfind) hm hname]

/-- A method that is not private is listed if it is neither the constructor nor an accessor that is
shown. -/
theorem DistinctMethods.mem_listedMethods (h : c.DistinctMethods) (hm : m ∈ c.methods)
    (horigin : m.origin ≠ .inherited) (hvisible : m.modifiers.visibility ≠ .priv) :
    m ∈ c.listedMethods ↔ m.isConstructor = false ∧ ¬c.AccessedBy m := by
  have hincluded : c.isIncluded (.method m) = true := by
    simp [isIncluded, AnyMember.info, horigin, hvisible]
  rw [← h.mem_accessorNames hm]
  simp [listedMethods, hm, hincluded]

theorem mem_of_mem_listedMethods (h : m ∈ c.listedMethods) :
    m ∈ c.methods ∧ m.origin ≠ .inherited := by
  obtain ⟨hm, htest⟩ := List.mem_filter.mp h
  refine ⟨hm, ?_⟩
  simp only [isIncluded, AnyMember.info, Bool.and_eq_true, bne_iff_ne] at htest
  exact htest.1.1.1

end ClassDecl

/-! ## A view and its class -/

theorem exists_mem_of_forall₂ {α β : Type} {r : α → β → Prop} {as : List α} {bs : List β}
    (h : List.Forall₂ r as bs) {a : α} (ha : a ∈ as) : ∃ b ∈ bs, r a b := by
  induction h with
  | nil => cases ha
  | cons hr _ ih =>
    rcases List.mem_cons.mp ha with rfl | ha
    · exact ⟨_, List.mem_cons_self, hr⟩
    · obtain ⟨b, hb, hab⟩ := ih ha
      exact ⟨b, List.mem_cons_of_mem _ hb, hab⟩

namespace ClassView

open ClassDecl

variable {v : ClassView} {d : ClassDecl} {m : Method}

namespace Drawn

theorem mem_accessors (h : v.Drawn d) {as : List String} :
    (∃ p ∈ v.properties, p.accessors = as) ↔
      ∃ p ∈ d.properties, d.isIncluded (.property p) = true ∧ d.accessorsFor p.name = as := by
  rw [← List.mem_map (f := PropertyView.accessors), h.accessors, List.mem_map]
  simp only [List.mem_filter, and_assoc]

theorem showsAt_accessor (h : v.Drawn d) : v.ShowsAt m .accessor ↔ d.AccessedBy m := by
  constructor
  · rintro ⟨p, hp, ha⟩
    obtain ⟨q, hq, hshown, heq⟩ := h.mem_accessors.mp ⟨p, hp, rfl⟩
    exact ⟨q, hq, hshown, heq ▸ ha⟩
  · rintro ⟨q, hq, hshown, ha⟩
    obtain ⟨p, hp, heq⟩ := h.mem_accessors.mpr ⟨q, hq, hshown, rfl⟩
    exact ⟨p, hp, heq ▸ ha⟩

theorem showsAt_list (h : v.Drawn d) (hd : d.DistinctMethods) (hm : m ∈ d.methods) :
    v.ShowsAt m .list ↔ m ∈ d.listedMethods := by
  constructor
  · rintro ⟨w, hw, hdepicts⟩
    obtain ⟨m', hm', hdepicts'⟩ := exists_mem_of_forall₂ h.methods hw
    have hname : m'.name = m.name := hdepicts'.name.symm.trans hdepicts.name
    rwa [← hd.eq_of_name (mem_of_mem_listedMethods hm').1 hm (by rw [hname])]
  · exact fun hlisted => exists_mem_of_forall₂ h.methods.flip hlisted

theorem showsAt_constructor (h : v.Drawn d) (hd : d.DistinctMethods) (hm : m ∈ d.methods)
    (horigin : m.origin ≠ .inherited) : v.ShowsAt m .constructor ↔ m.isConstructor = true := by
  have hrel := h.constructor
  constructor
  · rintro ⟨w, hw, hdepicts⟩
    rw [hw] at hrel
    cases hfound : d.constructor?.filter (·.origin != .inherited) with
    | none =>
      rw [hfound] at hrel
      cases hrel
    | some m' =>
      rw [hfound] at hrel
      cases hrel with
      | some hdepicts' =>
        have hfind := (Option.filter_eq_some_iff.mp hfound).1
        have hname : m'.name = m.name := hdepicts'.name.symm.trans hdepicts.name
        rw [← hd.eq_of_name (List.mem_of_find?_eq_some hfind) hm (by rw [hname])]
        exact List.find?_some hfind
  · intro hctor
    have hkeep : (some m).filter (·.origin != .inherited) = some m :=
      Option.filter_eq_some_iff.mpr ⟨rfl, bne_iff_ne.mpr horigin⟩
    rw [hd.constructor?_eq hm hctor, hkeep] at hrel
    cases hw : v.constructor? with
    | none =>
      rw [hw] at hrel
      cases hrel
    | some w =>
      rw [hw] at hrel
      cases hrel with
      | some hdepicts => exact ⟨w, hw, hdepicts⟩

/-- **Each visible method is at one place**, if no two methods of the class have the same name. -/
theorem showsEach (h : v.Drawn d) (hd : d.DistinctMethods) : v.ShowsEach d := by
  constructor
  · intro m hm horigin hvisible
    have hctor := h.showsAt_constructor hd hm horigin
    have hlist := (h.showsAt_list hd hm).trans (hd.mem_listedMethods hm horigin hvisible)
    have haccessor := h.showsAt_accessor (m := m)
    by_cases hm' : m.isConstructor = true
    · refine ⟨.constructor, hctor.mpr hm', fun place hplace => ?_⟩
      cases place with
      | constructor => rfl
      | list => exact absurd hm' (Bool.eq_false_iff.mp (hlist.mp hplace).1)
      | accessor => exact absurd hm' (Bool.eq_false_iff.mp (haccessor.mp hplace).not_isConstructor)
    by_cases haccessed : d.AccessedBy m
    · refine ⟨.accessor, haccessor.mpr haccessed, fun place hplace => ?_⟩
      cases place with
      | constructor => exact absurd (hctor.mp hplace) hm'
      | list => exact absurd haccessed (hlist.mp hplace).2
      | accessor => rfl
    · refine ⟨.list, hlist.mpr ⟨Bool.eq_false_iff.mpr hm', haccessed⟩, fun place hplace => ?_⟩
      cases place with
      | constructor => exact absurd (hctor.mp hplace) hm'
      | list => rfl
      | accessor => exact absurd (haccessor.mp hplace) haccessed
  · have hnames : List.Forall₂ (· = ·) (v.methods.map fun w => Text.lower w.name)
        (d.listedMethods.map fun m => Text.lower m.name) := by
      rw [List.forall₂_map_left_iff, List.forall₂_map_right_iff]
      exact h.methods.imp fun w m hdepicts => by rw [hdepicts.name]
    rw [List.forall₂_eq_eq_eq] at hnames
    rw [hnames]
    exact hd.sublist (List.filter_sublist.map _)

/-- **Nothing but methods of the class itself is shown.** -/
theorem showsOnly (h : v.Drawn d) : v.ShowsOnly d := by
  constructor
  · intro w hw
    obtain ⟨m, hm, hdepicts⟩ := exists_mem_of_forall₂ h.methods hw
    obtain ⟨hmem, horigin⟩ := mem_of_mem_listedMethods hm
    exact ⟨m, hmem, horigin, hdepicts⟩
  · intro p hp a ha
    obtain ⟨q, -, -, heq⟩ := h.mem_accessors.mp ⟨p, hp, rfl⟩
    obtain ⟨m, hm, horigin, hname, -⟩ := exists_of_mem_accessorsFor (heq ▸ ha)
    exact ⟨m, hm, horigin, hname⟩

end Drawn

end ClassView

namespace Draft

theorem parameterView_name (ctx : LinkContext) (types : TypeContext) (resolved : ResolvedDoc)
    (p : Parameter) :
    Gives (parameterView ctx types resolved p) fun v => v.name = p.name :=
  Gives.after fun _ => Gives.after fun _ => Gives.pure rfl

theorem methodView_depicts (site : Site) (m : Method) (resolved : ResolvedDoc) :
    Gives (methodView site m resolved) fun w => w.Depicts m := by
  refine (Gives.mapM (parameterView_name _ _ _) _).bind fun parameters hparameters => ?_
  refine Gives.after fun _ => Gives.after fun _ => Gives.after fun _ => Gives.pure ?_
  exact ⟨rfl, rfl, rfl, rfl, rfl, hparameters, rfl⟩

theorem listedMethodView_depicts (parse : String → Lookup Docblock) (site : Site) (m : Method) :
    Gives (listedMethodView parse site m) fun w => w.Depicts m :=
  Gives.after fun resolved => methodView_depicts site m resolved

theorem propertyView_accessors (parse : String → Lookup Docblock) (site : Site)
    (doc : Option ResolvedDoc) (p : Property) :
    Gives (propertyView parse site doc p) fun v => v.accessors = site.decl.accessorsFor p.name :=
  Gives.after fun _ => Gives.after fun _ => Gives.after fun _ => Gives.pure rfl

/-- The text of the constructor is there just when the constructor is. -/
theorem constructorDoc_isSome (parse : String → Lookup Docblock) (m : Option Method) :
    Gives (constructorDoc parse m) fun doc => doc.isSome = m.isSome := by
  cases m with
  | none => exact Gives.pure rfl
  | some m => exact Gives.after fun _ => Gives.pure rfl

theorem constructorView_depicts (site : Site) (m : Option Method) (doc : Option ResolvedDoc)
    (hdoc : doc.isSome = m.isSome) :
    Gives (constructorView site m doc) fun w => Option.Rel MethodView.Depicts w m := by
  cases m with
  | none => exact Gives.pure .none
  | some m =>
    cases doc with
    | none => cases hdoc
    | some doc => exact (methodView_depicts site m doc).bind fun w hw => Gives.pure (.some hw)

/-- **A view takes its methods from its class.** -/
theorem classView_drawn (ctx : LinkContext) (d : ClassDecl) (parent : Option ClassView) :
    Gives (classView ctx d parent) fun v => v.Drawn d := by
  refine Gives.after fun found => Gives.after fun resolved => Gives.after fun interfaces =>
    Gives.after fun traits =>
    Gives.after fun backing => Gives.after fun constants => ?_
  refine (constructorDoc_isSome _ _).bind fun doc hdoc => ?_
  refine (Gives.mapM (propertyView_accessors _ _ doc) _).bind fun properties hproperties => ?_
  refine (constructorView_depicts _ _ doc hdoc).bind fun constructor hconstructor => ?_
  refine (Gives.mapM_forall₂ (listedMethodView_depicts _ _) _).bind fun methods hmethods => ?_
  exact Gives.after fun link => Gives.pure ⟨hconstructor, hmethods, hproperties⟩

end Draft

/-! ## Flattened classes -/

namespace Index

open ClassDecl

variable {project : Option Project} {ix : Index}

/-- A flattened class repeats no name of a kind that its declaration does not repeat, unless it is
remembered from a body that did. Without mappings it never does. -/
theorem describe?_distinctOf (h : Reached project ix) {name : String} {c : ClassDecl}
    (hown : (own name ix).1 = some c) {kind : MemberKind} (hc : c.DistinctOf kind) :
    ∃ d, (describe? name ix).1 = some d ∧
      (d.DistinctOf kind ↔ ∀ m, ix.flattened.find? (key name) = some m →
        m.written.DistinctOf kind) ∧
      (Unmapped { project } → d.DistinctOf kind) := by
  have hclean := clean_reached h
  obtain ⟨-, hfound⟩ := describe?_clean hclean name
  cases hmem : ix.flattened.find? (key name) with
  | none =>
    obtain ⟨d, hd, hspread⟩ := hfound.made hmem c hown
    have hdistinct := (hspread.distinctOf_iff kind).mpr hc
    refine ⟨d, hd, iff_of_true hdistinct fun m hm => ?_, fun _ => hdistinct⟩
    cases hm
  | some d =>
    have hiff := (hclean.memory _ d hmem).distinctOf_iff kind
    refine ⟨d, hfound.remembered d hmem, hiff.trans ?_, fun hu => ?_⟩
    · constructor
      · intro hwritten m hm
        obtain rfl := Option.some.inj hm
        exact hwritten
      · exact fun hall => hall d rfl
    · have hk := kept_reached hu h
      rw [own_of_unmapped hk.unmapped] at hown
      exact hiff.mpr ((hk.distinctOf_written hown hmem kind).mpr hc)

/--
**No visible method is lost from a view.**

Where no two methods of a declaration have the same name, no two of the flattened class have,
unless it is remembered from a body that did; without mappings it never is. Then every view that is
built shows each method of the class itself that is not private at exactly one place. Whatever the
names are, it shows no other methods.
-/
theorem showsEach_describe (h : Reached project ix) {name : String} {c : ClassDecl}
    (hown : (own name ix).1 = some c) (hc : c.DistinctMethods) :
    ∃ d, (describe name ix).1 = .ok d ∧
      (d.DistinctMethods ↔ ∀ m, ix.flattened.find? (key name) = some m →
        m.written.DistinctMethods) ∧
      (Unmapped { project } → d.DistinctMethods) ∧
      ∀ (ctx : LinkContext) (b : Builder),
        (b.context.any (·.same ctx) = true → b.views.find? (Builder.key name) = none) →
        ∃ v, ((Builder.build ctx name).run b ix).1.1 = .ok v ∧ v.ShowsOnly d ∧
          (d.DistinctMethods → v.ShowsEach d) := by
  simp only [distinctMethods_iff] at hc ⊢
  obtain ⟨d, hd, hiff, hunmapped⟩ := describe?_distinctOf h hown hc
  refine ⟨d, by rw [describe_apply, hd]; rfl, hiff, hunmapped, fun ctx b hb => ?_⟩
  obtain ⟨v, hv, hdrawn⟩ :=
    Builder.build_drawn ctx hb hd fun parent => Draft.classView_drawn ctx d parent
  exact ⟨v, hv, hdrawn.showsOnly,
    fun hdistinct => hdrawn.showsEach ((distinctMethods_iff d).mpr hdistinct)⟩

/-- A private property that is shown for an accessor from a trait, next to methods of all kinds. -/
theorem showsEach_describe_accessors :
    let above := ({} : Index).add "b.php"
      "<?php trait T { function HASÉ() {} function run() {} } class B { function old() {} }"
    let ix := above.add "a.php"
      "<?php
    class A extends B { use T; private $é; function __construct() {} private function getÉ() {} }"
    let ctx := LinkContext.new "" "/" "/"
    ∃ d v, (describe "A" ix).1 = .ok d ∧ ((Builder.build ctx "A").run {} ix).1.1 = .ok v ∧
      v.ShowsOnly d ∧ v.ShowsEach d := by
  intro above ix ctx
  have hreach : Reached none ix := .add _ _ (.add _ _ .new)
  have hu : Unmapped { project := none } := by intro p hp; simp at hp
  have hknown : ((own "A" ix).1.any fun c => decide c.DistinctMethods) = true := by decide +kernel
  obtain ⟨c, hc, hdistinct⟩ := (Option.any_eq_true _ _).mp hknown
  obtain ⟨d, hd, -, hunmapped, hbuilt⟩ :=
    showsEach_describe hreach hc (of_decide_eq_true hdistinct)
  obtain ⟨v, hv, honly, heach⟩ := hbuilt ctx {} (fun _ => rfl)
  exact ⟨d, v, hd, hv, honly, heach (hunmapped hu)⟩

theorem exists_of_toOption_any {ε α : Type} {r : Except ε α} {p : α → Bool}
    (h : r.toOption.any p = true) :
    ∃ a, r = .ok a ∧ p a = true := by
  cases r with
  | error e => cases h
  | ok a => exact ⟨a, rfl, h⟩

/-- A walk that reads a new declaration of its class leaves the flattened form of the old one
behind. The two accessors there have the same name but for the case, and the view shows only the
first. -/
theorem missing_method_of_redeclared :
    let added := ({ project := some shadowProject } : Index).add "a.php"
      "<?php namespace App; class C { use T; public $x; function getX() {} function GETX() {} }"
    let ix := (describe "App\\C" added).2
    let ctx := LinkContext.new "App" "/src" "/"
    Reached (some shadowProject) ix ∧ (∃ c, (own "App\\C" ix).1 = some c ∧ c.DistinctMethods) ∧
      ∃ d v, (describe "App\\C" ix).1 = .ok d ∧
        ((Builder.build ctx "App\\C").run {} ix).1.1 = .ok v ∧
        ∃ m ∈ d.methods, m.origin = .own ∧ m.modifiers.visibility = .pub ∧
            ∀ place, ¬ v.ShowsAt m place := by
  intro added ix ctx
  have hall : ((own "App\\C" ix).1.any fun c => decide c.DistinctMethods) = true ∧
      ((describe "App\\C" ix).1.toOption.any fun d => d.methods.any fun m =>
        m.name == "GETX" && m.origin == .own && m.modifiers.visibility == .pub) = true ∧
      (((Builder.build ctx "App\\C").run {} ix).1.1.toOption.any fun v =>
        v.constructor?.isNone && v.methods.isEmpty && v.properties.all fun p => p.accessors ==
            ["getX"]) = true := by
    decide +kernel
  obtain ⟨hknown, hflat, hview⟩ := hall
  obtain ⟨c, hc, hdistinct⟩ := (Option.any_eq_true _ _).mp hknown
  obtain ⟨d, hd, hmethod⟩ := exists_of_toOption_any hflat
  obtain ⟨v, hv, hshown⟩ := exists_of_toOption_any hview
  obtain ⟨m, hm, hgetter⟩ := List.any_eq_true.mp hmethod
  simp only [Bool.and_eq_true, beq_iff_eq] at hgetter
  obtain ⟨⟨hname, horigin⟩, hvisibility⟩ := hgetter
  simp only [Bool.and_eq_true, Option.isNone_iff_eq_none, List.isEmpty_iff, List.all_eq_true,
    beq_iff_eq] at hshown
  obtain ⟨⟨hconstructor, hmethods⟩, haccessors⟩ := hshown
  refine ⟨.describe _ (.add _ _ .new), ⟨c, hc, of_decide_eq_true hdistinct⟩, d, v, hd, hv,
    m, hm, horigin, hvisibility, fun place hplace => ?_⟩
  cases place with
  | constructor =>
    obtain ⟨w, hw, -⟩ := hplace
    rw [hconstructor] at hw
    cases hw
  | list =>
    obtain ⟨w, hw, -⟩ := hplace
    rw [hmethods] at hw
    cases hw
  | accessor =>
    obtain ⟨p, hp, hmem⟩ := hplace
    rw [haccessors p hp, hname, List.mem_singleton] at hmem
    exact absurd hmem (by decide)

end Index

end ClassDocs

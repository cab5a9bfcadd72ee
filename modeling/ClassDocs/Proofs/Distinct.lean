import ClassDocs.Proofs.Provenance

/-!
# Each member once

Members are put behind those that are there only if their name is new, so a flattened class repeats
no name that its declaration does not repeat (`Spread`). This is so on every class graph, and for
an index that reads files on the way up: whatever a walk meets, it adds to the class it started
with one new name after the other.

A class and its flattened form are two things, though. The flattened form is remembered until the
next file is added, and a walk that reads a file puts in what it has made of the declaration it
started with, while the file may have declared the class anew. `distinct_describe` says what is
left: a flattened class repeats a name only if it is remembered, and then only a name that was
repeated in the body it was made from. Without mappings no file is read on the way, and the body is
the one that is known.
-/

namespace ClassDocs

/-! ## Names -/

/-- No two constants and no two properties have the same name, and no two methods the same name in
any letter case. -/
@[mk_iff]
structure ClassDecl.Distinct (c : ClassDecl) : Prop where
  constants : (c.constants.map (·.name)).Nodup
  properties : (c.properties.map (·.name)).Nodup
  methods : (c.methods.map fun m => Text.lower m.name).Nodup

/-- The same for the members that a view shows. -/
structure ClassView.Distinct (v : ClassView) : Prop where
  constants : (v.constants.map (·.name)).Nodup
  properties : (v.properties.map (·.name)).Nodup
  methods : (v.methods.map fun m => Text.lower m.name).Nodup

instance (c : ClassDecl) : Decidable c.Distinct := decidable_of_iff' _ c.distinct_iff

/-- Whether two members of a kind have different names. -/
def AnyMember.Differ (kind : MemberKind) (a b : AnyMember) : Prop :=
  kind.fold a.info.name ≠ kind.fold b.info.name

theorem AnyMember.differ_of_same {kind : MemberKind} {a b : AnyMember}
    (h : AnyMember.same kind b a = false) :
    AnyMember.Differ kind a b := by
  simpa [AnyMember.same, AnyMember.hasName, AnyMember.Differ] using h

namespace ClassDecl

variable {c m : ClassDecl}

/-- No two members of a kind have the same name. -/
def DistinctOf (c : ClassDecl) (kind : MemberKind) : Prop :=
  (c.membersOf kind).Pairwise (AnyMember.Differ kind)

theorem distinct_iff_distinctOf (c : ClassDecl) : c.Distinct ↔ ∀ kind, c.DistinctOf kind := by
  simp only [distinct_iff, DistinctOf, List.Nodup, List.pairwise_map]
  constructor
  · rintro ⟨hconstants, hproperties, hmethods⟩ kind
    cases kind with
    | constant => exact List.pairwise_map.mpr hconstants
    | property => exact List.pairwise_map.mpr hproperties
    | method => exact List.pairwise_map.mpr hmethods
  · intro h
    exact ⟨(List.pairwise_map (f := AnyMember.constant)).mp (h .constant),
      (List.pairwise_map (f := AnyMember.property)).mp (h .property),
      (List.pairwise_map (f := AnyMember.method)).mp (h .method)⟩

/-- The class with those of its members only that are written in its body. -/
def written (c : ClassDecl) : ClassDecl :=
  { c with
    constants := c.constants.filter (·.origin == .own)
    properties := c.properties.filter (·.origin == .own)
    methods := c.methods.filter (·.origin == .own) }

theorem membersOf_written (c : ClassDecl) (kind : MemberKind) :
    c.written.membersOf kind = (c.membersOf kind).filter (·.info.origin == .own) := by
  cases kind <;> rw [membersOf, membersOf, List.filter_map] <;> rfl

/-- `m` has the members of `c`, and behind them some from elsewhere, each of a new name. -/
def Spread (c m : ClassDecl) : Prop :=
  ∀ kind, ∃ further, m.membersOf kind = c.membersOf kind ++ further ∧
    (∀ x ∈ further, x.info.origin ≠ .own) ∧
    further.Pairwise (AnyMember.Differ kind) ∧ ∀ a ∈ c.membersOf kind, ∀ x ∈ further,
      AnyMember.Differ kind a x

theorem Spread.refl (c : ClassDecl) : Spread c c :=
  fun _ => ⟨[], by simp, by simp, List.Pairwise.nil, by simp⟩

/-- Taking over members keeps it so, if they are marked as coming from elsewhere. -/
theorem Spread.addMembers (h : Spread c m) (other : ClassDecl) {mark : Member → Member}
    (hmark : ∀ i, (mark i).origin ≠ .own) : Spread c (m.addMembers other mark) := by
  intro kind
  obtain ⟨further, heq, horigin, hpair, hfront⟩ := h kind
  obtain ⟨extra, hextra, hsub, hnew, hextraPair⟩ :=
    addUnnamed_eq_append (AnyMember.same kind) (m.membersOf kind)
    ((other.membersOf kind).map (·.relabel mark))
  have hdiffer : ∀ x ∈ extra, ∀ a ∈ m.membersOf kind, AnyMember.Differ kind a x :=
    fun x hx a ha => AnyMember.differ_of_same (hnew x hx a ha)
  refine ⟨further ++ extra,
    by rw [membersOf_addMembers, hextra, heq, List.append_assoc], ?_, ?_, ?_⟩
  · refine List.forall_mem_append.mpr ⟨horigin, fun x hx => ?_⟩
    obtain ⟨y, -, rfl⟩ := List.mem_map.mp (hsub hx)
    rw [AnyMember.info_relabel]
    exact hmark y.info
  · refine List.pairwise_append.mpr
      ⟨hpair, hextraPair.imp AnyMember.differ_of_same, fun a ha x hx => ?_⟩
    exact hdiffer x hx a (heq ▸ List.mem_append_right _ ha)
  · intro a ha x hx
    rcases List.mem_append.mp hx with hx | hx
    · exact hfront a ha x hx
    · exact hdiffer x hx a (heq ▸ List.mem_append_left _ ha)

theorem Spread.addTrait (h : Spread c m) (trait : ClassDecl) (via : String) :
    Spread c (m.addTrait trait via) :=
  h.addMembers trait fun _ => by simp [adopted]

theorem Spread.inherit (h : Spread c m) (ancestor : ClassDecl) (withProperties : Bool) :
    Spread c (m.inherit ancestor withProperties) :=
  h.addMembers _ fun _ => by simp [inherited]

/-- No name is repeated but in front. -/
theorem Spread.distinctOf_iff (h : Spread c m) (kind : MemberKind) :
    m.DistinctOf kind ↔ c.DistinctOf kind := by
  obtain ⟨further, heq, -, hpair, hfront⟩ := h kind
  rw [DistinctOf, DistinctOf, heq, List.pairwise_append]
  exact ⟨And.left, fun hc => ⟨hc, hpair, hfront⟩⟩

theorem Spread.distinct_iff (h : Spread c m) : m.Distinct ↔ c.Distinct := by
  rw [distinct_iff_distinctOf, distinct_iff_distinctOf]
  exact forall_congr' h.distinctOf_iff

/-- What is written in the body is what stands in front. -/
theorem Grown.distinctOf_written (h : Grown (fun _ x => x.info.origin ≠ .own) c m)
    (hown : ∀ kind, ∀ x ∈ c.membersOf kind, x.info.origin = .own) (kind : MemberKind) :
    m.written.DistinctOf kind ↔ c.DistinctOf kind := by
  obtain ⟨further, heq, horigin⟩ := h kind
  have hfront : (c.membersOf kind).filter (·.info.origin == .own) = c.membersOf kind :=
    List.filter_eq_self.mpr fun x hx => by simp [hown kind x hx]
  have hback : further.filter (·.info.origin == .own) = [] :=
    List.filter_eq_nil_iff.mpr fun x hx => by simpa using horigin x hx
  rw [DistinctOf, DistinctOf, membersOf_written, heq, List.filter_append, hfront, hback,
    List.append_nil]

theorem Spread.grown (h : Spread c m) : Grown (fun _ x => x.info.origin ≠ .own) c m := by
  intro kind
  obtain ⟨further, heq, horigin, -, -⟩ := h kind
  exact ⟨further, heq, horigin⟩

end ClassDecl

/-! ## The walk, with files read on the way -/

namespace Index

open ClassDecl

variable {project : Option Project} {ix : Index}

/-- A remembered class was made of a declaration. -/
def Made (m : ClassDecl) : Prop :=
  ∃ c, Spread c m ∧ ∀ kind, ∀ x ∈ c.membersOf kind, x.info.origin = .own

/-- Declarations as they are written, and flattened classes that are made of such. -/
structure Clean (i : Index) : Prop where
  filed : Filed i.classes
  memory : ∀ k m, i.flattened.find? k = some m → Made m

theorem clean_new (parser : Source.Parser) (project : Option Project) :
    Clean { parser, project } :=
  ⟨⟨List.nodup_nil, by simp, by simp, by simp, by simp⟩, by simp⟩

theorem Clean.add (h : Clean ix) (file content : String) : Clean (ix.add file content) := by
  refine ⟨filed_add h.filed file content, fun k m hm => ?_⟩
  have hnothing : (ix.add file content).flattened = {} := by unfold Index.add addDecls; rfl
  rw [hnothing] at hm
  simp at hm

theorem Clean.autoload (h : Clean ix) (name : String) : Clean (ix.autoload name) := by
  rcases autoload_cases ix name with heq | heq | ⟨path, text, heq⟩ <;> rw [heq]
  · exact h
  · exact ⟨h.filed, h.memory⟩
  · exact h.add path text

/-- Looking a declaration up may read a file, and gives a declaration as written. -/
theorem own_clean (name : String) :
    Ensures Clean (own name) fun found =>
      ∀ c, found = some c → ∀ kind, ∀ x ∈ c.membersOf kind, x.info.origin = .own := by
  intro i hi
  unfold own
  split
  · rename_i c hc
    refine ⟨fun c' hc' => ?_, hi⟩
    obtain rfl := Option.some.inj hc'
    exact hi.filed.origin _ c hc
  · have hloaded := hi.autoload name
    exact ⟨fun c hc => hloaded.filed.origin _ c hc, hloaded⟩

theorem addTraits_clean {c : ClassDecl} (depth : Nat) :
    ∀ (stack : List String) (via : Option String) (names : List String) (m : ClassDecl),
      Spread c m → Ensures Clean (addTraits depth stack via names m) (Spread c) := by
  induction depth with
  | zero => intro stack via names m hm; exact Ensures.pure hm
  | succ depth ih =>
    intro stack via names m hm
    refine Ensures.foldlM_inv names (fun m name hm => ?_) m hm
    refine (own_clean name).bind fun found _ => ?_
    cases found with
    | none => exact Ensures.pure hm
    | some trait =>
      simp only
      split
      · exact Ensures.pure hm
      · exact ih _ _ _ _ (hm.addTrait trait _)

theorem remember_clean {k : String} {m : ClassDecl} (h : Made m) :
    Ensures Clean (modify fun i => { i with flattened := i.flattened.insert k m })
      fun _ => True := by
  refine Ensures.modify fun i hi => ⟨hi.filed, fun k' m' hfind => ?_⟩
  rw [Table.find?_insert] at hfind
  split at hfind
  · obtain rfl := Option.some.inj hfind
    exact h
  · exact hi.memory k' m' hfind

/-- What a walk gives from a state: what is remembered; else, of a declaration that is found,
a class made of it. -/
structure Unfolds (i : Index) (name : String) (found : Option ClassDecl) : Prop where
  remembered : ∀ m, i.flattened.find? (key name) = some m → found = some m
  made : i.flattened.find? (key name) = none → ∀ c, (own name i).1 = some c →
    ∃ m, found = some m ∧ Spread c m

/-- **Every walk adds new names only**, whatever it reads on the way. -/
theorem flatten_clean (bound : Nat) :
    ∀ (stack : List String) (name : String) {i : Index}, Clean i →
    Clean (flatten bound stack name i).2 ∧
      (0 < bound → Unfolds i name (flatten bound stack name i).1.1) := by
  induction bound with
  | zero => intro stack name i hi; exact ⟨hi, fun h => absurd h (Nat.lt_irrefl 0)⟩
  | succ bound ih =>
    intro stack name i hi
    have hbind : ∀ {α : Type} (f : Option ClassDecl → Lookup α),
        (own name >>= f) i = f (own name i).1 (own name i).2 := fun _ => rfl
    simp only [flatten]
    rw [get_bind]
    cases hmem : i.flattened.find? (key name) with
    | some m =>
      refine ⟨hi, fun _ => ⟨fun m' hm' => ?_, fun hnone => ?_⟩⟩
      · rw [hmem] at hm'
        exact hm'
      · rw [hmem] at hnone
        cases hnone
    | none =>
      dsimp only
      rw [hbind]
      obtain ⟨hwritten, hi'⟩ := own_clean name i hi
      cases hown : (own name i).1 with
      | none =>
        refine ⟨hi', fun _ => ⟨fun m hm => ?_, fun _ c hc => ?_⟩⟩
        · rw [hmem] at hm
          cases hm
        · rw [hown] at hc
          cases hc
      | some c =>
        have hall := hwritten c hown
        -- from here on the declaration stays the same, whatever happens to the index
        have hrest : ∀ rest : Lookup (Option ClassDecl × Bool),
            Ensures Clean rest (fun r => ∃ m, r.1 = some m ∧ Spread c m) →
            Clean (rest (own name i).2).2 ∧
                (0 < bound + 1 → Unfolds i name (rest (own name i).2).1.1) := by
          intro rest hensures
          obtain ⟨hfound, hclean⟩ := hensures _ hi'
          refine ⟨hclean, fun _ => ⟨fun m hm => ?_, fun _ c' hc' => ?_⟩⟩
          · rw [hmem] at hm
            cases hm
          · rw [hown] at hc'
            obtain rfl := Option.some.inj hc'
            exact hfound
        refine hrest _ ?_
        dsimp only
        split
        · exact Ensures.pure ⟨c, rfl, Spread.refl c⟩
        refine (addTraits_clean _ _ _ _ _ (Spread.refl c)).bind fun merged hmerged => ?_
        refine Ensures.bind (Ensures.foldlM_inv (P := fun sofar => Spread c sofar.1) c.ancestors
          (fun sofar a hsofar => ?_) (merged, false) hmerged) fun result hresult => ?_
        · refine Ensures.bind (Q := fun _ => True)
            (fun i hi => ⟨trivial, (ih _ a.1 hi).1⟩) fun r _ => ?_
          obtain ⟨found, cyclic⟩ := r
          cases found with
          | none => exact Ensures.pure hsofar
          | some ancestor => exact Ensures.pure (hsofar.inherit ancestor a.2)
        · obtain ⟨merged, cyclic⟩ := result
          cases cyclic with
          | true => exact Ensures.pure ⟨merged, rfl, hresult⟩
          | false =>
            exact (remember_clean ⟨c, hresult, hall⟩).bind fun _ _ =>
              Ensures.pure ⟨merged, rfl, hresult⟩

theorem describe?_clean {i : Index} (hi : Clean i) (name : String) :
    Clean (describe? name i).2 ∧ Unfolds i name (describe? name i).1 := by
  obtain ⟨hclean, hfound⟩ := flatten_clean i.bound [] name hi
  exact ⟨hclean, hfound (Nat.succ_pos _)⟩

theorem clean_reached (h : Reached project ix) : Clean ix := by
  refine h.holds (fun parser => clean_new parser project)
    (fun ix file content hi => hi.add file content) (fun ix name _ hi => ?_)
    fun ix _ hi =>
      ⟨Clean, hi, fun _ => id, fun name i hi => ⟨trivial, (describe?_clean hi name).1⟩⟩
  exact (own_clean name ix hi).2

theorem Made.distinctOf_iff {m : ClassDecl} (h : Made m) (kind : MemberKind) :
    m.DistinctOf kind ↔ m.written.DistinctOf kind := by
  obtain ⟨c, hspread, hown⟩ := h
  rw [hspread.distinctOf_iff, hspread.grown.distinctOf_written hown]

theorem Made.distinct_iff {m : ClassDecl} (h : Made m) : m.Distinct ↔ m.written.Distinct := by
  rw [distinct_iff_distinctOf, distinct_iff_distinctOf]
  exact forall_congr' h.distinctOf_iff

/-- Without mappings a remembered class was made of the declaration that is known. -/
theorem Kept.distinctOf_written (h : Kept ix) {k : String} {c m : ClassDecl}
    (hc : ix.classes.find? k = some c) (hm : ix.flattened.find? k = some m) (kind : MemberKind) :
    m.written.DistinctOf kind ↔ c.DistinctOf kind := by
  obtain ⟨-, c', hc', hcomposed⟩ := h.traced.memory k m hm
  obtain rfl := Option.some.inj (hc.symm.trans hc')
  refine (hcomposed.grown.mono ?_).distinctOf_written (h.filed.origin k c hc) kind
  rintro kind x
    ⟨-, ⟨name, -, t, -, -, k', own, -, -, y, -, rfl⟩ | ⟨k', d, -, -, -, -, y, -, -, rfl⟩⟩
  · simp [adopted]
  · simp [inherited]

theorem Kept.distinct_written (h : Kept ix) {k : String} {c m : ClassDecl}
    (hc : ix.classes.find? k = some c) (hm : ix.flattened.find? k = some m) :
    m.written.Distinct ↔ c.Distinct := by
  rw [distinct_iff_distinctOf, distinct_iff_distinctOf]
  exact forall_congr' (h.distinctOf_written hc hm)

end Index

/-! ## Views -/

namespace Draft

open Index

variable {α β σ : Type}

/-- What a lookup with a state of its own gives, from every state, is in `Q`. -/
def Gives (m : StateT σ Lookup α) (Q : α → Prop) : Prop := ∀ s i, Q (m.run s i).1.1

theorem Gives.pure {Q : α → Prop} {a : α} (h : Q a) : Gives (pure a : StateT σ Lookup α) Q :=
  fun _ _ => h

theorem Gives.bind {m : StateT σ Lookup α} {f : α → StateT σ Lookup β} {Q : α → Prop}
    {R : β → Prop} (hm : Gives m Q) (hf : ∀ a, Q a → Gives (f a) R) : Gives (m >>= f) R :=
  fun s i => hf _ (hm s i) _ _

/-- A step whose result is not looked at. -/
theorem Gives.after {m : StateT σ Lookup α} {f : α → StateT σ Lookup β} {R : β → Prop}
    (hf : ∀ a, Gives (f a) R) :
    Gives (m >>= f) R := fun _ _ => hf _ _ _

theorem Gives.mapM_forall₂ {f : α → StateT σ Lookup β} {R : β → α → Prop}
    (h : ∀ a, Gives (f a) fun b => R b a) (l : List α) :
    Gives (l.mapM f) fun bs => List.Forall₂ R bs l := by
  induction l with
  | nil => exact Gives.pure .nil
  | cons a l ih =>
    rw [List.mapM_cons]
    exact (h a).bind fun b hb => ih.bind fun bs hbs => Gives.pure (.cons hb hbs)

theorem Gives.mapM {γ : Type} {f : α → StateT σ Lookup β} {name : α → γ} {name' : β → γ}
    (h : ∀ a, Gives (f a) fun b => name' b = name a) (l : List α) :
    Gives (l.mapM f) fun bs => bs.map name' = l.map name := by
  intro s i
  have hmaps : List.Forall₂ (· = ·) (((l.mapM f).run s i).1.1.map name') (l.map name) := by
    rw [List.forall₂_map_left_iff, List.forall₂_map_right_iff]
    exact Gives.mapM_forall₂ h l s i
  rwa [List.forall₂_eq_eq_eq] at hmaps

theorem constantView_name (parse : String → Lookup Docblock) (site : Site) (c : Constant) :
    Gives (constantView parse site c) fun v => v.name = c.name :=
  Gives.after fun _ => Gives.after fun _ => Gives.after fun _ => Gives.pure rfl

theorem propertyView_name (parse : String → Lookup Docblock) (site : Site)
    (doc : Option ResolvedDoc) (p : Property) :
    Gives (propertyView parse site doc p) fun v => v.name = p.name :=
  Gives.after fun _ => Gives.after fun _ => Gives.after fun _ => Gives.pure rfl

theorem listedMethodView_name (parse : String → Lookup Docblock) (site : Site) (m : Method) :
    Gives (listedMethodView parse site m) fun v => v.name = m.name :=
  Gives.after fun _ => Gives.after fun _ => Gives.after fun _ => Gives.after fun _ =>
    Gives.after fun _ =>
    Gives.pure rfl

/-- **A view shows members of its class, each under its name and in order.** -/
theorem classView_distinct (ctx : LinkContext) (parent : Option ClassView) {c : ClassDecl}
    (h : c.Distinct) :
    Gives (classView ctx c parent) ClassView.Distinct := by
  refine Gives.after fun found => Gives.after fun resolved => Gives.after fun interfaces =>
    Gives.after fun traits =>
    Gives.after fun backing => ?_
  refine (Gives.mapM (constantView_name _ _) _).bind fun constants hconstants => ?_
  refine Gives.after fun constructorDoc => ?_
  refine (Gives.mapM (propertyView_name _ _ constructorDoc) _).bind
    fun properties hproperties => ?_
  refine Gives.after fun constructor => ?_
  refine (Gives.mapM (listedMethodView_name _ _) _).bind fun methods hmethods => ?_
  refine Gives.after fun link => Gives.pure ⟨?_, ?_, ?_⟩
  · rw [hconstants]
    exact h.constants.sublist (List.filter_sublist.map _)
  · rw [hproperties]
    exact h.properties.sublist (List.filter_sublist.map _)
  · have hlower : methods.map (fun m => Text.lower m.name) =
        c.listedMethods.map fun m => Text.lower m.name := by
      have hmap := congrArg (List.map Text.lower) hmethods
      rwa [List.map_map, List.map_map] at hmap
    rw [hlower]
    exact h.methods.sublist (List.filter_sublist.map _)

end Draft

namespace Builder

open Index Draft

variable (ctx : LinkContext)

/-- What a builder draws from a flattened class, whatever the view of the parent is. -/
theorem finish_gives {d : ClassDecl} {P : ClassView → Prop}
    (h : ∀ parent, Gives (Draft.classView ctx d parent) P) (k : String)
    (above : Option ClassView × Bool) :
    Gives (do
      let (view, issues) ← ((Draft.classView ctx d above.1).run [] : Lookup _)
      record issues
      if !above.2 then
        modify fun b => { b with views := b.views.insert k view }
      return (some view, above.2) : Build (Option ClassView × Bool)) fun r =>
        ∃ v, r.1 = some v ∧ P v := by
  have hlift : Gives
      (liftM ((Draft.classView ctx d above.1).run []) : Build (ClassView × List Issue))
      fun r => P r.1 := fun _ i => h above.1 [] i
  refine hlift.bind fun r hr => Gives.after fun _ => ?_
  split
  · exact Gives.after fun _ => Gives.pure ⟨r.1, rfl, hr⟩
  · exact Gives.pure ⟨r.1, rfl, hr⟩

/-- A view that is not remembered is drawn from the flattened class. -/
theorem buildView_drawn (bound : Nat) (underway : List String) {name : String}
    {b : Builder} {i : Index} (hb : b.views.find? (key name) = none) {d : ClassDecl}
    (hd : (describe? name i).1 = some d) {P : ClassView → Prop}
    (h : ∀ parent, Gives (Draft.classView ctx d parent) P) :
    ∃ v, ((buildView ctx (bound + 1) underway name).run b i).1.1.1 = some v ∧ P v := by
  have hbind : ∀ {α : Type} (f : Option ClassDecl → Build α),
      ((liftM (describe? name) >>= f : Build α).run b) i =
          (f (describe? name i).1).run b (describe? name i).2 :=
    fun _ => rfl
  rw [buildView, StateT.run_bind, StateT.run_get, pure_bind]
  simp only [hb]
  rw [hbind, hd]
  have hgives := Gives.after
    (m := buildParent (buildView ctx bound (key name :: underway)) (key name :: underway) d)
    (finish_gives ctx h (key name))
  exact hgives b _

/-- **A view that is built** has what every view drawn from the flattened class has. -/
theorem build_drawn {name : String} {b : Builder} {i : Index}
    (hb : b.context.any (·.same ctx) = true → b.views.find? (key name) = none) {d : ClassDecl}
    (hd : (describe? name i).1 = some d) {P : ClassView → Prop}
    (h : ∀ parent, Gives (Draft.classView ctx d parent) P) :
    ∃ v, ((build ctx name).run b i).1.1 = .ok v ∧ P v := by
  obtain ⟨n, hn⟩ : ∃ n, 2 * i.bound = n + 1 := ⟨2 * i.bound - 1, by unfold Index.bound; omega⟩
  have hready : (if b.context.any (·.same ctx) then b
      else { b with views := {}, context := some ctx }).views.find? (key name) = none := by
    split
    · exact hb ‹_›
    · rfl
  obtain ⟨v, hv, hdrawn⟩ := buildView_drawn ctx n [] hready hd h
  refine ⟨v, ?_, hdrawn⟩
  have hrun : ((build ctx name).run b i).1.1 =
      described name ((buildView ctx (2 * i.bound) [] name).run
        (if b.context.any (·.same ctx) then b else { b with views := {}, context := some ctx })
        i).1.1.1 := by
    rw [build_eq]
    rfl
  rw [hrun, hn, hv]
  rfl

/-- A view that is built repeats no name that the flattened class does not repeat. -/
theorem build_distinct {name : String} {b : Builder} {i : Index}
    (hb : b.context.any (·.same ctx) = true → b.views.find? (key name) = none) {d : ClassDecl}
    (hd : (describe? name i).1 = some d) (h : d.Distinct) :
    ∃ v, ((build ctx name).run b i).1.1 = .ok v ∧ v.Distinct :=
  build_drawn ctx hb hd fun parent => classView_distinct ctx parent h

end Builder

/-! ## Flattened classes and their views -/

namespace Index

variable {project : Option Project} {ix : Index}

/--
A flattened class repeats no name that its declaration does not repeat, unless it is remembered
from a body that did. Without mappings it never does. A view that is built from it does not repeat
a name either.
-/
theorem distinct_describe (h : Reached project ix) {name : String} {c : ClassDecl}
    (hown : (own name ix).1 = some c) (hc : c.Distinct) :
    ∃ d, (describe name ix).1 = .ok d ∧
      (d.Distinct ↔ ∀ m, ix.flattened.find? (key name) = some m → m.written.Distinct) ∧
      (Unmapped { project } → d.Distinct) ∧
      (d.Distinct → ∀ (ctx : LinkContext) (b : Builder),
        (b.context.any (·.same ctx) = true → b.views.find? (Builder.key name) = none) →
        ∃ v, ((Builder.build ctx name).run b ix).1.1 = .ok v ∧ v.Distinct) := by
  have hclean := clean_reached h
  obtain ⟨-, hfound⟩ := describe?_clean hclean name
  cases hmem : ix.flattened.find? (key name) with
  | none =>
    obtain ⟨d, hd, hspread⟩ := hfound.made hmem c hown
    have hdistinct := hspread.distinct_iff.mpr hc
    refine ⟨d, by rw [describe_apply, hd]; rfl, ?_, fun _ => hdistinct, fun _ ctx b hb => ?_⟩
    · exact ⟨fun _ m hm => absurd hm (by simp), fun _ => hdistinct⟩
    · exact Builder.build_distinct ctx hb hd hdistinct
  | some d =>
    have hd := hfound.remembered d hmem
    have hiff := (hclean.memory _ d hmem).distinct_iff
    refine ⟨d, by rw [describe_apply, hd]; rfl, ?_, fun hu => ?_, fun hdistinct ctx b hb => ?_⟩
    · refine hiff.trans ⟨fun hwritten m hm => ?_, fun hall => hall d rfl⟩
      obtain rfl := Option.some.inj hm
      exact hwritten
    · -- nothing is read on the way, so the body is the one that is known
      have hk := kept_reached hu h
      rw [own_of_unmapped hk.unmapped] at hown
      exact hiff.mpr ((hk.distinct_written hown hmem).mpr hc)
    · exact Builder.build_distinct ctx hb hd hdistinct

/-- A trait that is reached twice, in a class whose parents form a cycle. -/
theorem distinct_describe_diamond :
    let ix := ({} : Index).add "a.php"
      "<?php trait V { function f() {} } trait T { use V; } class A extends B { use T, V; }
      class B extends A {}"
    ∃ c, (own "A" ix).1 = some c ∧ c.Distinct ∧ ∃ d, (describe "A" ix).1 = .ok d ∧
      (d.Distinct ↔ ∀ m, ix.flattened.find? (key "A") = some m → m.written.Distinct) ∧
      (Unmapped { project := none } → d.Distinct) ∧
      (d.Distinct → ∀ (ctx : LinkContext) (b : Builder),
        (b.context.any (·.same ctx) = true → b.views.find? (Builder.key "A") = none) →
        ∃ v, ((Builder.build ctx "A").run b ix).1.1 = .ok v ∧ v.Distinct) := by
  intro ix
  have hreach : Reached none ix := .add _ _ .new
  have hknown : ((own "A" ix).1.any fun c => decide c.Distinct) = true := by decide +kernel
  obtain ⟨c, hc, hdistinct⟩ := (Option.any_eq_true _ _).mp hknown
  exact ⟨c, hc, of_decide_eq_true hdistinct,
    distinct_describe hreach hc (of_decide_eq_true hdistinct)⟩

/-- A project with a file that declares a class next to the trait it is named for. -/
def shadowProject : Project where
  root := "/"
  mappings := [⟨"App\\", "src/", false⟩]
  disk :=
    { nodes := [(["src"], .directory),
        (["src", "T.php"],
          .file (some "<?php namespace App; trait T {} class C { function m() {} }"))] }

/-- A walk that reads a new declaration of its class leaves the flattened form of the old one
behind. -/
theorem not_distinct_describe_of_redeclared :
    let added := ({ project := some shadowProject } : Index).add "a.php"
      "<?php namespace App; class C { use T; function m() {} function M() {} }"
    let ix := (describe "App\\C" added).2
    Reached (some shadowProject) ix ∧ (∃ c, (own "App\\C" ix).1 = some c ∧ c.Distinct) ∧
      ∃ d, (describe "App\\C" ix).1 = .ok d ∧ ¬ d.Distinct := by
  intro added ix
  have hboth : ((own "App\\C" ix).1.any fun c => decide c.Distinct) = true ∧
      ((describe "App\\C" ix).1.toOption.any fun d => !decide d.Distinct) = true := by
        decide +kernel
  obtain ⟨hknown, hrepeats⟩ := hboth
  obtain ⟨c, hc, hdistinct⟩ := (Option.any_eq_true _ _).mp hknown
  obtain ⟨d, hd, hnot⟩ := (Option.any_eq_true _ _).mp hrepeats
  refine ⟨.describe _ (.add _ _ .new), ⟨c, hc, of_decide_eq_true hdistinct⟩, d, ?_, ?_⟩
  · cases hfound : (describe "App\\C" ix).1 with
    | error e =>
      rw [hfound] at hd
      cases hd
    | ok d' =>
      rw [hfound] at hd
      rw [← Option.some.inj hd]
  · simpa using hnot

end Index

end ClassDocs

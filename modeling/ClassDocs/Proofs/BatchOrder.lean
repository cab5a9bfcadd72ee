import ClassDocs.Batch
import ClassDocs.Proofs.Memo
import ClassDocs.Proofs.Tables

/-!
# A batch in any order

The classes of a batch are built one after another on one index, and each build leaves flattened
classes behind that the next ones find. If no class is used as a trait from above, what is left
behind is right, so that each class gets the view it would get first, and the report is the same in
any order. It takes care of the order itself: entries are sorted by name (`inOrder_congr`).

Whether a class is built at all depends on the table only, which no build changes
(`buildOnce_finds`). So every class is reported, and either as built or as failed, whatever
the class graph looks like.
-/

namespace ClassDocs

/-! ## Entries in order of names -/

namespace Report

variable {α : Type}

/-- Entries of one name are equal. -/
def Single (entries : List (String × α)) : Prop := ∀ a ∈ entries, ∀ b ∈ entries, a.1 = b.1 → a = b

theorem mem_entries_ofList {entries : List (String × α)} (h : Single entries) (e : String × α) :
    e ∈ (Table.ofList entries).entries ↔ e ∈ entries := by
  have hmade := Table.madeOf_ofList entries
  refine ⟨hmade.subset e, fun he => ?_⟩
  obtain ⟨e', he', hkey⟩ := List.mem_map.mp ((hmade.keys e.1).mpr (List.mem_map_of_mem he))
  rw [← h e' (hmade.subset e' he') e he hkey]
  exact he'

theorem mem_keys_inOrder (entries : List (String × α)) (name : String) :
    name ∈ (inOrder entries).map Prod.fst ↔ name ∈ entries.map Prod.fst := by
  rw [← (Table.madeOf_ofList entries).keys name]
  exact ((List.mergeSort_perm _ _).map Prod.fst).mem_iff

/-- The order and the number of equal entries do not matter. -/
theorem inOrder_congr {entries entries' : List (String × α)} (h : Single entries)
    (hsame : ∀ e, e ∈ entries ↔ e ∈ entries') : inOrder entries = inOrder entries' := by
  have h' : Single entries' := fun a ha b hb => h a ((hsame a).mpr ha) b ((hsame b).mpr hb)
  have hperm : (Table.ofList entries).entries.Perm (Table.ofList entries').entries := by
    rw [List.perm_ext_iff_of_nodup (List.Nodup.of_map _ (Table.madeOf_ofList entries).nodup)
      (List.Nodup.of_map _ (Table.madeOf_ofList entries').nodup)]
    intro e
    rw [mem_entries_ofList h, mem_entries_ofList h', hsame]
  have hsorted : ∀ t : Table α, t.sorted.Pairwise fun a b => decide (a.1 ≤ b.1) = true := by
    intro t
    refine List.pairwise_mergeSort (fun a b c hab hbc => ?_) (fun a b => ?_) t.entries
    · simp only [decide_eq_true_eq] at *
      exact String.le_trans hab hbc
    · simpa using String.le_total a.1 b.1
  refine List.Perm.eq_of_pairwise ?_ (hsorted _) (hsorted _)
    ((List.mergeSort_perm _ _).trans (hperm.trans (List.mergeSort_perm _ _).symm))
  intro a b ha hb hab hba
  simp only [decide_eq_true_eq] at hab hba
  refine h a ?_ b ?_ (String.le_antisymm hab hba)
  · exact (mem_entries_ofList h a).mp (List.mem_mergeSort.mp ha)
  · exact (hsame b).mpr ((mem_entries_ofList h' b).mp (List.mem_mergeSort.mp hb))

end Report

/-! ## Builds agree -/

namespace Index

variable {V : Index → Index → Prop} {α β σ : Type}

theorem AgreeT.get : AgreeT V (get : StateT σ Lookup σ) get := fun s => Agree.pure (s, s)

theorem Ensures.lift {V : Index → Prop} {m : Lookup α} {Q : α → Prop} (h : Ensures V m Q) (s : σ) :
    Ensures V ((liftM m : StateT σ Lookup α).run s) fun r => Q r.1 := by
  show Ensures V (m >>= fun a => Pure.pure (a, s)) _
  exact h.bind fun _ ha => Ensures.pure ha

/-- Work that starts by looking at the index. -/
theorem AgreeT.index {f f' : Index → StateT σ Lookup β}
    (hf : ∀ i i', V i i' → AgreeT V (f i) (f' i')) :
    AgreeT V (liftM (MonadState.get : Lookup Index) >>= f)
      (liftM (MonadState.get : Lookup Index) >>= f') :=
  fun s i i' hV => hf i i' hV s hV

end Index

namespace Builder

open Index

variable {V : Index → Index → Prop} {ctx : LinkContext}

theorem record_agree (issues : List Issue) : AgreeT V (record issues) (record issues) :=
  AgreeT.modify _

theorem buildParent_agree {walk : String → Build (Option ClassView × Bool)}
    (h : ∀ name, AgreeT V (walk name) (walk name)) (underway : List String) (c : ClassDecl) :
    AgreeT V (buildParent walk underway c) (buildParent walk underway c) := by
  unfold buildParent
  split
  · exact AgreeT.pure _
  · split
    · exact (record_agree _).bind fun _ => AgreeT.pure _
    · exact h _

theorem buildView_agree (hV : Coherent V) (bound : Nat) :
    ∀ (underway : List String) (name : String),
      AgreeT V (buildView ctx bound underway name) (buildView ctx bound underway name) := by
  induction bound with
  | zero => intro underway name; exact AgreeT.pure _
  | succ bound ih =>
    intro underway name
    rw [buildView]
    refine AgreeT.get.bind fun b => ?_
    split
    · exact AgreeT.pure _
    refine (AgreeT.lift (hV.describe? name)).bind fun found => ?_
    cases found with
    | none => exact AgreeT.pure _
    | some c =>
      refine (buildParent_agree (ih _) _ _).bind fun above => ?_
      refine (AgreeT.lift (Draft.classView_agree hV (LinkContext.same_refl ctx) c above.1 [])).bind
        fun drawn => ?_
      refine (record_agree _).bind fun _ => ?_
      dsimp only
      split
      · exact (AgreeT.modify _).bind fun _ => AgreeT.pure _
      · exact AgreeT.pure _

theorem build_agree (hV : Coherent V) (ctx : LinkContext) (name : String) :
    AgreeT V (build ctx name) (build ctx name) := by
  refine (AgreeT.modify _).bind fun _ => ?_
  refine AgreeT.index fun i i' hstates => ?_
  rw [hV.bound i i' hstates]
  refine (buildView_agree hV _ _ _).bind fun r => ?_
  rcases r with ⟨_ | view, cyclic⟩
  · exact AgreeT.pure _
  · exact AgreeT.pure _

/-- **A build by a new builder** depends on the classes and the links only. -/
theorem buildOnce_agree (hV : Coherent V) (ctx : LinkContext) (name : String) :
    Agree V (buildOnce ctx name) (buildOnce ctx name) :=
  (build_agree hV ctx name {}).bind fun _ => Agree.pure _

/-! ## Which classes are built -/

/-- A state with the classes of `ix`, seen twice. -/
def Settled (ix i i' : Index) : Prop := i = i' ∧ SameTable ix i

theorem coherent_settled {ix : Index} (hu : Unmapped ix) : Coherent (Settled ix) :=
  coherent_of_ensures fun name => (describe?_finds hu name).keeps

theorem keeps_of_agree {ix : Index} {α : Type} {m : Lookup α} (h : Agree (Settled ix) m m) :
    Keeps ix m :=
  h.ensures

variable {ix : Index}

theorem buildView_finds (hu : Unmapped ix) (bound : Nat) (underway : List String)
    {name : String} {b : Builder} (hb : b.views.find? (key name) = none) :
    Ensures (SameTable ix) ((buildView ctx (bound + 1) underway name).run b) fun r =>
      r.1.1.isSome = ix.classes.contains (Index.key name) := by
  have hV := coherent_settled hu
  rw [buildView, StateT.run_bind, StateT.run_get, pure_bind]
  simp only [hb]
  rw [StateT.run_bind]
  refine ((describe?_finds hu name).lift b).bind fun r hr => ?_
  obtain ⟨found, b⟩ := r
  cases found with
  | none => exact Ensures.pure hr
  | some c =>
    -- whatever is met from here on, there is a view in the end
    dsimp only at hr ⊢
    rw [← hr, StateT.run_bind]
    refine Ensures.bind (keeps_of_agree (buildParent_agree (buildView_agree hV _ _) _ _ b))
      fun above _ => ?_
    rw [StateT.run_bind]
    refine Ensures.bind (keeps_of_agree
      (AgreeT.lift (Draft.classView_agree hV (LinkContext.same_refl ctx) c above.1.1 []) above.2))
        fun drawn _ => ?_
    rw [StateT.run_bind]
    refine Ensures.bind (keeps_of_agree (record_agree _ drawn.2)) fun done _ => ?_
    split
    · exact Ensures.pure rfl
    · exact Ensures.pure rfl

/-- **A class is built if it is known**, and the table stays as it is. -/
theorem buildOnce_finds (hu : Unmapped ix) (name : String) :
    Ensures (SameTable ix) (buildOnce ctx name) fun outcome =>
      outcome.isOk = ix.classes.contains (Index.key name) := by
  intro i hi
  refine ⟨?_, (keeps_of_agree (buildOnce_agree (coherent_settled hu) ctx name) i hi).2⟩
  have hbuild : buildOnce ctx name i =
      let r := (buildView ctx (2 * i.bound) [] name).run { context := some ctx } i
      ((described name r.1.1.1).map fun view => (view, r.1.2.issues), r.2) := by
    rw [buildOnce, build_eq]
    rfl
  obtain ⟨n, hn⟩ : ∃ n, 2 * i.bound = n + 1 := ⟨2 * i.bound - 1, by unfold Index.bound; omega⟩
  have hfound : ((buildView ctx (n + 1) [] name).run { context := some ctx } i).1.1.1.isSome =
      ix.classes.contains (Index.key name) := (buildView_finds hu n [] rfl i hi).1
  rw [hbuild, hn]
  dsimp only
  rw [← hfound]
  cases ((buildView ctx (n + 1) [] name).run { context := some ctx } i).1.1.1 <;> rfl

end Builder

/-! ## The report -/

namespace Report

open Index

variable {ix : Index} {ctx : LinkContext} {outcomes outcomes' : List (String × Outcome)}

theorem inOrder_filterMap_congr {α : Type} {pick : String × Outcome → Option (String × α)}
    (hpick : ∀ o e, pick o = some e → e.1 = o.1) (h : Single outcomes)
    (hsame : ∀ o, o ∈ outcomes ↔ o ∈ outcomes') :
    inOrder (outcomes.filterMap pick) = inOrder (outcomes'.filterMap pick) := by
  refine inOrder_congr ?_ ?_
  · intro a ha b hb hname
    obtain ⟨o, ho, hoa⟩ := List.mem_filterMap.mp ha
    obtain ⟨o', ho', hob⟩ := List.mem_filterMap.mp hb
    rw [hpick o a hoa, hpick o' b hob] at hname
    obtain rfl := h o ho o' ho' hname
    exact Option.some.inj (hoa.symm.trans hob)
  · intro e
    simp only [List.mem_filterMap, hsame]

/-- A report depends on what came of each class only. -/
theorem ofOutcomes_congr (h : Single outcomes) (hsame : ∀ o, o ∈ outcomes ↔ o ∈ outcomes') :
    ofOutcomes outcomes = ofOutcomes outcomes' := by
  unfold ofOutcomes
  congr 1
  · refine inOrder_filterMap_congr ?_ h hsame
    rintro ⟨name, _ | ⟨view, issues⟩⟩ e he
    · cases he
    · obtain rfl := Option.some.inj he
      rfl
  · refine inOrder_filterMap_congr ?_ h hsame
    rintro ⟨name, failure | _⟩ e he
    · obtain rfl := Option.some.inj he
      rfl
    · cases he
  · refine inOrder_filterMap_congr ?_ h hsame
    rintro ⟨name, _ | ⟨view, _ | ⟨issue, more⟩⟩⟩ e he
    · cases he
    · cases he
    · obtain rfl := Option.some.inj he
      rfl

theorem mem_views_iff (outcomes : List (String × Outcome)) (name : String) :
    name ∈ (ofOutcomes outcomes).views.map Prod.fst ↔ ∃ o ∈ outcomes, o.1 = name ∧
      o.2.isOk = true := by
  unfold ofOutcomes
  rw [mem_keys_inOrder]
  simp only [List.mem_map, List.mem_filterMap]
  constructor
  · rintro ⟨e, ⟨⟨name, _ | ⟨view, issues⟩⟩, ho, he⟩, rfl⟩
    · cases he
    · obtain rfl := Option.some.inj he
      exact ⟨_, ho, rfl, rfl⟩
  · rintro ⟨⟨name, _ | ⟨view, issues⟩⟩, ho, rfl, hok⟩
    · cases hok
    · exact ⟨_, ⟨_, ho, rfl⟩, rfl⟩

theorem mem_failures_iff (outcomes : List (String × Outcome)) (name : String) :
    name ∈ (ofOutcomes outcomes).failures.map Prod.fst ↔ ∃ o ∈ outcomes, o.1 = name ∧
      o.2.isOk = false := by
  unfold ofOutcomes
  rw [mem_keys_inOrder]
  simp only [List.mem_map, List.mem_filterMap]
  constructor
  · rintro ⟨e, ⟨⟨name, failure | _⟩, ho, he⟩, rfl⟩
    · obtain rfl := Option.some.inj he
      exact ⟨_, ho, rfl, rfl⟩
    · cases he
  · rintro ⟨⟨name, failure | _⟩, ho, rfl, hok⟩
    · exact ⟨_, ⟨_, ho, rfl⟩, rfl⟩
    · cases hok

/-- The outcomes of a batch: one for each class in turn, and a view for the known ones. -/
theorem outcomes_find (hu : Unmapped ix) (ctx : LinkContext) (classes : List String) :
    Ensures (SameTable ix) (classes.mapM (outcomeOf ctx)) fun outcomes =>
      outcomes.map Prod.fst = classes ∧
        ∀ o ∈ outcomes, o.2.isOk = ix.classes.contains (Index.key o.1) := by
  induction classes with
  | nil => exact Ensures.pure ⟨rfl, by simp⟩
  | cons name classes ih =>
    rw [List.mapM_cons]
    have hone : Ensures (SameTable ix) (outcomeOf ctx name) fun o =>
        o.1 = name ∧ o.2.isOk = ix.classes.contains (Index.key o.1) :=
      (Builder.buildOnce_finds hu name).bind fun outcome hok => Ensures.pure ⟨rfl, hok⟩
    refine hone.bind fun o ho => ih.bind fun rest hrest => Ensures.pure ⟨?_, ?_⟩
    · rw [List.map_cons, ho.1, hrest.1]
    · exact List.forall_mem_cons.mpr ⟨ho.2, hrest.2⟩

/-- The outcomes of a batch are those that each class has by itself. -/
theorem outcomes_answer (hu : Unmapped ix) (hapart : Apart ix.classes) (hself : Variant ix ix)
    (classes : List String) :
    Answers ix (classes.mapM (outcomeOf ctx))
      (classes.map fun name => (outcomeOf ctx name ix).1) := by
  induction classes with
  | nil => exact Answers.pure []
  | cons name classes ih =>
    rw [List.mapM_cons]
    have hone : Answers ix (outcomeOf ctx name) (outcomeOf ctx name ix).1 := by
      intro i hi
      have hagree := (Builder.buildOnce_agree (coherent_variants hu hapart) ctx name).bind
        fun outcome => Agree.pure (name, outcome)
      obtain ⟨heq, hi', -⟩ := hagree ⟨hi, hself⟩
      exact ⟨heq, hi'⟩
    exact hone.bind (ih.bind (Answers.pure _))

/--
Every class of a batch is reported either as built or as failed. And if no class is used as a trait
by one above it, the report is the same in whatever order the classes are built.
-/
theorem run_perm (h : Reachable ix) (ctx : LinkContext) (classes : List String) :
    (∀ name ∈ classes, name ∈ (run ctx classes ix).1.views.map Prod.fst ↔
        name ∉ (run ctx classes ix).1.failures.map Prod.fst) ∧
      (Apart ix.classes → ∀ classes', classes'.Perm classes →
        (run ctx classes' ix).1 = (run ctx classes ix).1) := by
  have hs := sound_reachable h
  have hrun : ∀ classes, (run ctx classes ix).1 = ofOutcomes (classes.mapM (outcomeOf ctx) ix).1 :=
    fun _ => rfl
  constructor
  · intro name hname
    obtain ⟨hnames, hok⟩ := (outcomes_find hs.unmapped ctx classes ix hs.table).1
    rw [hrun, mem_views_iff, mem_failures_iff]
    generalize (classes.mapM (outcomeOf ctx) ix).1 = outcomes at hnames hok
    rw [← hnames] at hname
    obtain ⟨o, ho, rfl⟩ := List.mem_map.mp hname
    -- all outcomes of one name are alike, since the table is the same at each build
    have hall : ∀ ok : Bool, (∃ o' ∈ outcomes, o'.1 = o.1 ∧ o'.2.isOk = ok) ↔
        ix.classes.contains (Index.key o.1) = ok := by
      intro ok
      constructor
      · rintro ⟨o', ho', hname, hok'⟩
        rw [← hname, ← hok o' ho']
        exact hok'
      · intro hknown
        exact ⟨o, ho, rfl, (hok o ho).trans hknown⟩
    rw [hall, hall, Bool.not_eq_false]
  · intro hapart classes' hperm
    have hself := hs.memory hapart
    rw [hrun, hrun, (outcomes_answer hs.unmapped hapart hself classes' ix hself).1,
      (outcomes_answer hs.unmapped hapart hself classes ix hself).1]
    refine ofOutcomes_congr ?_ fun o => (hperm.map _).mem_iff
    intro a ha b hb hname
    obtain ⟨name, -, rfl⟩ := List.mem_map.mp ha
    obtain ⟨name', -, rfl⟩ := List.mem_map.mp hb
    obtain rfl : name = name' := hname
    rfl

/-- A class below two classes that extend each other, with a trait, among names that are not
declared. -/
theorem run_perm_cycle :
    let ix := ({} : Index).add "a.php"
      "<?php trait T { function t() {} } class A extends B { use T; } class B extends A {}
      class C extends A {}"
    let ctx := LinkContext.new "App" "/src" "/"
    UsesTraits ix.classes ∧ ["C", "\\\\A", "B", "a"].Perm ["a", "B", "C", "\\\\A"] ∧
      (run ctx ["C", "\\\\A", "B", "a"] ix).1 = (run ctx ["a", "B", "C", "\\\\A"] ix).1 := by
  intro ix ctx
  have hreach : Reachable ix := .add _ _ (.new (by intro p hp; simp at hp))
  have huses : UsesTraits ix.classes := by decide +kernel
  have hperm : ["C", "\\\\A", "B", "a"].Perm ["a", "B", "C", "\\\\A"] := by decide
  exact ⟨huses, hperm, (run_perm hreach ctx _).2 ((sound_reachable hreach).apart huses) _ hperm⟩

theorem views_perm (outcomes : List (String × Outcome)) :
    (ofOutcomes outcomes).views.Perm (Table.ofList (outcomes.filterMap fun
      | (name, .ok (view, _)) => some (name, view)
      | (_, .error _) => none)).entries := List.mergeSort_perm _ _

/-- A class that its parent uses as a trait: built first, it leaves its parent behind without the
method. -/
theorem run_ne_run_of_used_parent :
    let ix := ({} : Index).add "a.php"
      "<?php class A extends B { function f() {} } class B { use A; }"
    let ctx := LinkContext.new "App" "/src" "/"
    let hasMethod := fun v : String × ClassView => v.2.methods.any (·.name == "f")
    ["A", "B"].Perm ["B", "A"] ∧ (run ctx ["A", "B"] ix).1.views.all hasMethod = false ∧
      (run ctx ["B", "A"] ix).1.views.all hasMethod = true := by
  intro ix ctx hasMethod
  have hall : ∀ classes, (run ctx classes ix).1.views.all hasMethod =
      (Table.ofList ((classes.mapM (outcomeOf ctx) ix).1.filterMap fun
        | (name, .ok (view, _)) => some (name, view)
        | (_, .error _) => none)).entries.all hasMethod := fun _ => (views_perm _).all_eq
  rw [hall, hall]
  decide +kernel

end Report

end ClassDocs

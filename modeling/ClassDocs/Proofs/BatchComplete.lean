import ClassDocs.Proofs.BatchOrder
import ClassDocs.Proofs.Missing

/-!
# Which classes of a batch are built

A class is built exactly if it is found (`buildOnce_isOk`), and every class of a batch is reported
once, as built or as failed (`report_perm`). A class that is known when the batch begins is found
as long as it stays known. Without mappings nothing happens to the table. With mappings a build may
read files, and a file that is read again takes the place of what it was given with; if that was
the same, no class is lost (`Current`).
-/

namespace ClassDocs

/-! ## Lookups that keep a property -/

namespace Index

/-- A known class is found, in every state. -/
theorem describe?_isSome {name : String} {i : Index} (h : i.classes.contains (key name) = true) :
    (describe? name i).1.isSome = true := by
  cases hfound : (describe? name i).1 with
  | some m => rfl
  | none =>
    obtain ⟨n, hn⟩ : ∃ n, i.bound = n + 1 := ⟨i.bound - 1, by unfold Index.bound; omega⟩
    have hflat : (flatten i.bound [] name i).1.1 = none := hfound
    rw [hn] at hflat
    have hunknown := (own_eq_none (flatten_eq_none hflat).1).1
    rw [Table.contains, hunknown] at h
    cases h

theorem steady_unmapped (ix : Index) : Steady fun i => Unmapped i ∧ i.classes = ix.classes where
  own := by
    intro name i hi
    rw [own_of_unmapped hi.1]
    exact ⟨trivial, hi⟩
  remember := fun i flattened hi => hi

/-- What lookups leave of an index whose files are as they are on the disk: it knows all classes
that it knew. -/
structure Fresh (p : Project) (ix i : Index) : Prop where
  project : i.project = some p
  current : ∀ k, Current p k i
  known : ∀ k, ix.classes.contains k = true → i.classes.contains k = true

theorem steady_fresh {p : Project} (hmapped : p.mappings ≠ []) (ix : Index) :
    Steady (Fresh p ix) where
  own := by
    intro name i hi
    refine ⟨trivial, ?_⟩
    unfold own
    cases hfind : i.classes.find? (key name) with
    | some c => exact hi
    | none =>
      have hloaded := fun k => (hi.current k).autoload hi.project hmapped name
      refine ⟨(project_autoload i name).trans hi.project, fun k => (hloaded k).1, fun k hk => ?_⟩
      exact (hloaded k).2 (hi.known k hk)
  remember := fun i flattened hi => ⟨hi.project, hi.current, hi.known⟩

end Index

/-! ## Builds -/

namespace Builder

open Index

variable {ctx : LinkContext}

/-- A class that is not remembered gets a view if it is found. -/
theorem buildView_isSome (bound : Nat) (underway : List String) {name : String} {b : Builder}
    (hb : b.views.find? (key name) = none) (i : Index) :
    ((buildView ctx (bound + 1) underway name).run b i).1.1.1.isSome =
      (describe? name i).1.isSome := by
  rw [buildView, StateT.run_bind, StateT.run_get, pure_bind]
  simp only [hb]
  rw [StateT.run_bind]
  have hlift : ∀ rest : Option ClassDecl × Builder → Lookup ((Option ClassView × Bool) × Builder),
      ((liftM (describe? name) : Build _).run b >>= rest) i =
        rest ((describe? name i).1, b) (describe? name i).2 := fun _ => rfl
  rw [hlift]
  cases (describe? name i).1 with
  | none => rfl
  | some c =>
    -- whatever is met from here on, there is a view in the end
    have hsome : ∀ rest : Lookup ((Option ClassView × Bool) × Builder),
        Ensures (fun _ => True) rest (fun r => r.1.1.isSome = true) →
        (rest (describe? name i).2).1.1.1.isSome = true := fun rest h => (h _ trivial).1
    refine hsome _ ?_
    dsimp only
    rw [StateT.run_bind]
    refine Ensures.bind (Q := fun _ => True) (fun _ _ => ⟨trivial, trivial⟩) fun above _ => ?_
    rw [StateT.run_bind]
    refine Ensures.bind (Q := fun _ => True) (fun _ _ => ⟨trivial, trivial⟩) fun drawn _ => ?_
    rw [StateT.run_bind]
    refine Ensures.bind (Q := fun _ => True) (fun _ _ => ⟨trivial, trivial⟩) fun done _ => ?_
    split <;> exact Ensures.pure rfl

/-- **A class is built exactly if it is found.** -/
theorem buildOnce_isOk (ctx : LinkContext) (name : String) (i : Index) :
    (buildOnce ctx name i).1.isOk = (describe? name i).1.isSome := by
  obtain ⟨n, hn⟩ : ∃ n, 2 * i.bound = n + 1 := ⟨2 * i.bound - 1, by unfold Index.bound; omega⟩
  have hfound : ((buildView ctx (n + 1) [] name).run { context := some ctx } i).1.1.1.isSome =
      (describe? name i).1.isSome := buildView_isSome n [] rfl i
  rw [buildOnce_apply, hn, ← hfound]
  cases ((buildView ctx (n + 1) [] name).run { context := some ctx } i).1.1.1 <;> rfl

end Builder

/-! ## Reports -/

namespace Report

open Index

variable {ctx : LinkContext} {ix : Index}

theorem nodup_inOrder {α : Type} (entries : List (String × α)) :
    ((inOrder entries).map Prod.fst).Nodup :=
  ((List.mergeSort_perm _ _).map Prod.fst).nodup_iff.mpr (Table.madeOf_ofList entries).nodup

theorem names_outcomes (ctx : LinkContext) (classes : List String) :
    Ensures (fun _ => True) (classes.mapM (outcomeOf ctx)) fun outcomes =>
      outcomes.map Prod.fst = classes := by
  induction classes with
  | nil => exact Ensures.pure rfl
  | cons name classes ih =>
    rw [List.mapM_cons]
    have hone : Ensures (fun _ => True) (outcomeOf ctx name) fun o => o.1 = name :=
      fun _ _ => ⟨rfl, trivial⟩
    refine hone.bind fun o ho => ih.bind fun rest hrest => Ensures.pure ?_
    rw [List.map_cons, ho, hrest]

/-- Outcomes of different classes are divided into the built and the failed ones. -/
theorem ofOutcomes_perm {outcomes : List (String × Outcome)} (h : (outcomes.map Prod.fst).Nodup) :
    ((ofOutcomes outcomes).views.map Prod.fst ++ (ofOutcomes outcomes).failures.map Prod.fst).Perm
      (outcomes.map Prod.fst) := by
  have hsingle : ∀ o ∈ outcomes, ∀ o' ∈ outcomes, o.1 = o'.1 → o = o' := fun o ho o' ho' hname =>
    List.inj_on_of_nodup_map h ho ho' hname
  have hdisjoint : ∀ a ∈ (ofOutcomes outcomes).views.map Prod.fst,
      ∀ b ∈ (ofOutcomes outcomes).failures.map Prod.fst, a ≠ b := by
    rintro a ha b hb rfl
    obtain ⟨o, ho, hname, hok⟩ := (mem_views_iff outcomes a).mp ha
    obtain ⟨o', ho', hname', hfailed⟩ := (mem_failures_iff outcomes a).mp hb
    obtain rfl := hsingle o ho o' ho' (hname.trans hname'.symm)
    rw [hok] at hfailed
    cases hfailed
  have hnodup : ((ofOutcomes outcomes).views.map Prod.fst ++
      (ofOutcomes outcomes).failures.map Prod.fst).Nodup :=
    List.nodup_append.mpr ⟨nodup_inOrder _, nodup_inOrder _, hdisjoint⟩
  refine (List.perm_ext_iff_of_nodup hnodup h).mpr fun name => ?_
  rw [List.mem_append, mem_views_iff, mem_failures_iff, List.mem_map]
  constructor
  · rintro (⟨o, ho, hname, -⟩ | ⟨o, ho, hname, -⟩) <;> exact ⟨o, ho, hname⟩
  · rintro ⟨o, ho, hname⟩
    cases hok : o.2.isOk with
    | true => exact Or.inl ⟨o, ho, hname, hok⟩
    | false => exact Or.inr ⟨o, ho, hname, hok⟩

/-- **Every class of a batch is reported once**, as built or as failed. -/
theorem report_perm {classes : List String} (h : classes.Nodup) :
    ((run ctx classes ix).1.views.map Prod.fst ++
      (run ctx classes ix).1.failures.map Prod.fst).Perm classes := by
  have hnames : (classes.mapM (outcomeOf ctx) ix).1.map Prod.fst = classes :=
    (names_outcomes ctx classes ix trivial).1
  have hperm :=
    ofOutcomes_perm (hnames.symm ▸ h : ((classes.mapM (outcomeOf ctx) ix).1.map Prod.fst).Nodup)
  rwa [hnames] at hperm

/-- If the classes are known at every state that a build leaves behind, all of them are built. -/
theorem failures_eq_nil {V : Index → Prop} (hV : Steady V) {classes : List String}
    (hknown : ∀ i, V i → ∀ name ∈ classes, i.classes.contains (key name) = true) (hix : V ix) :
    (run ctx classes ix).1.failures = [] := by
  have hbuild : ∀ name, Ensures V (Builder.buildOnce ctx name) fun _ => True := fun name =>
    (Builder.buildOnce_agree (coherent_of_ensures (describe?_steady hV)) ctx name).ensures
  have houtcomes : ∀ some_classes : List String, some_classes ⊆ classes →
      Ensures V (some_classes.mapM (outcomeOf ctx)) fun outcomes => ∀ o ∈ outcomes,
          o.2.isOk = true := by
    intro some_classes
    induction some_classes with
    | nil => intro _; exact Ensures.pure (by simp)
    | cons name rest ih =>
      intro hsub
      rw [List.mapM_cons]
      have hone : Ensures V (outcomeOf ctx name) fun o => o.2.isOk = true := by
        intro i hi
        have hfound := describe?_isSome (hknown i hi name (hsub List.mem_cons_self))
        exact ⟨(Builder.buildOnce_isOk ctx name i).trans hfound, (hbuild name i hi).2⟩
      refine hone.bind fun o ho => (ih fun x hx => hsub (List.mem_cons_of_mem _ hx)).bind
        fun more hmore => ?_
      exact Ensures.pure (List.forall_mem_cons.mpr ⟨ho, hmore⟩)
  have hall := (houtcomes classes (fun _ h => h) ix hix).1
  have hnone : ∀ name, name ∉ (run ctx classes ix).1.failures.map Prod.fst := by
    intro name hname
    obtain ⟨o, ho, -, hfailed⟩ := (mem_failures_iff _ name).mp hname
    rw [hall o ho] at hfailed
    cases hfailed
  rw [← List.map_eq_nil_iff]
  exact List.eq_nil_iff_forall_not_mem.mpr hnone

/-- **Known classes are built** if there are no mappings, or if the files of the index are as on
the disk. -/
theorem failures_of_known (h : Unmapped ix ∨ ∃ p, ix.project = some p ∧ ∀ k, Current p k ix)
    {classes : List String} (hknown : ∀ name ∈ classes, ix.classes.contains (key name) = true) :
    (run ctx classes ix).1.failures = [] := by
  have hunmapped : Unmapped ix → (run ctx classes ix).1.failures = [] := by
    intro hu
    refine failures_eq_nil (steady_unmapped ix) (fun i hi name hname => ?_) ⟨hu, rfl⟩
    rw [hi.2]
    exact hknown name hname
  rcases h with hu | ⟨p, hp, hcurrent⟩
  · exact hunmapped hu
  · by_cases hmapped : p.mappings = []
    · refine hunmapped fun p' hp' => ?_
      obtain rfl := Option.some.inj (hp.symm.trans hp')
      exact hmapped
    · exact failures_eq_nil (steady_fresh hmapped ix)
        (fun i hi name hname => hi.known _ (hknown name hname)) ⟨hp, hcurrent, fun _ hk => hk⟩

end Report

end ClassDocs

import ClassDocs.Proofs.Provenance

/-!
# The issues of a builder

A builder that finds a view in its memory does not draw it again, so that the issues of that view
are not met again either. None is lost by this: they were collected when the view was made, and
what is collected stays. `reports` lists the issues of a build without memory. Where the parents
form no cycle they are the same from everywhere (`reports_eq_of_acc`), and a builder only remembers
views from there, so that it can be kept as an invariant that the issues of all remembered views
are collected (`Recalls`). Views across a cycle are made anew each time, and each time
the class where the cycle was met is reported.
-/

namespace ClassDocs.Builder

open Index Text

variable {ix : Index} {ctx ctx' : LinkContext}

/-! ## Collecting -/

theorem mem_addIssues {issues more : List Issue} {issue : Issue} :
    issue ∈ addIssues issues more ↔ issue ∈ issues ∨ issue ∈ more := by
  unfold addIssues
  induction more generalizing issues with
  | nil => simp
  | cons next more ih =>
    rw [List.foldl_cons, ih]
    split
    · rename_i hcon
      have hmem : next ∈ issues := by simpa using hcon
      grind
    · grind

theorem nodup_addIssues {issues : List Issue} (h : issues.Nodup) (more : List Issue) :
    (addIssues issues more).Nodup := by
  unfold addIssues
  induction more generalizing issues with
  | nil => exact h
  | cons next more ih =>
    rw [List.foldl_cons]
    split
    · exact ih h
    · rename_i hcon
      have hnew : next ∉ issues := by simpa using hcon
      refine ih (List.nodup_append.mpr ⟨h, List.nodup_singleton next, ?_⟩)
      grind

/-! ## Building without memory -/

/-- The issues noted while the view of a flattened class is drawn. -/
def noted (ix : Index) (ctx : LinkContext) (c : ClassDecl) (parent : Option ClassView) :
    List Issue :=
  ((Draft.classView ctx c parent).run [] ix).1.2

/-- The issues of building the class of a key without memory: those met above it, then its own. -/
def reports (ix : Index) (ctx : LinkContext) : Nat → List String → String → List Issue
  | 0, _, _ => []
  | bound + 1, underway, k =>
    match (climb ix.classes ix.bound [] k).1 with
    | none => []
    | some c =>
      match c.parent with
      | none => noted ix ctx c none
      | some p =>
        if (k :: underway).contains (lower p) then .inheritanceCycle c.name :: noted ix ctx c none
        else reports ix ctx bound (k :: underway) (lower p) ++
          noted ix ctx c (ascend ix ctx bound (k :: underway) (lower p)).1

section

variable {k : String} {c : ClassDecl} {bound : Nat} {underway : List String}

theorem reports_of_unknown (h : (climb ix.classes ix.bound [] k).1 = none) :
    reports ix ctx bound underway k = [] := by
  cases bound with
  | zero => rfl
  | succ bound => simp only [reports, h]

theorem reports_of_root (h : (climb ix.classes ix.bound [] k).1 = some c) (hp : c.parent = none) :
    reports ix ctx (bound + 1) underway k = noted ix ctx c none := by
  simp only [reports, h, hp]

theorem reports_of_met (h : (climb ix.classes ix.bound [] k).1 = some c) {p : String}
    (hp : c.parent = some p) (hmet : lower p ∈ k :: underway) :
    reports ix ctx (bound + 1) underway k = [.inheritanceCycle c.name] ++ noted ix ctx c none := by
  have hcon : (k :: underway).contains (lower p) = true := by simpa using hmet
  simp only [reports, h, hp, hcon, if_true, List.singleton_append]

theorem reports_of_new (h : (climb ix.classes ix.bound [] k).1 = some c) {p : String}
    (hp : c.parent = some p) (hnew : lower p ∉ k :: underway) :
    reports ix ctx (bound + 1) underway k = reports ix ctx bound (k :: underway) (lower p) ++
      noted ix ctx c (ascend ix ctx bound (k :: underway) (lower p)).1 := by
  have hcon : (k :: underway).contains (lower p) = false := by simpa using hnew
  simp only [reports, h, hp, hcon, Bool.false_eq_true, if_false]

/-- **From a class whose parents form no cycle every build meets the same issues.** -/
theorem reports_eq_of_acc (ctx : LinkContext) (hacc : Acc (ParentOf ix.classes) k) :
    ∀ {b b' : Nat} {s s' : List String}, Trail (ParentOf ix.classes) ix.classes b s k →
      Trail (ParentOf ix.classes) ix.classes b' s' k →
        reports ix ctx b s k = reports ix ctx b' s' k := by
  induction hacc with
  | intro k hsub ih =>
    have hself : Acc (ParentOf ix.classes) k := ⟨k, hsub⟩
    intro b b' s s' h h'
    obtain ⟨n, rfl⟩ := h.pos
    obtain ⟨n', rfl⟩ := h'.pos
    cases hc : (climb ix.classes ix.bound [] k).1 with
    | none => rw [reports_of_unknown hc, reports_of_unknown hc]
    | some c =>
      cases hp : c.parent with
      | none => rw [reports_of_root hc hp, reports_of_root hc hp]
      | some p =>
        obtain ⟨hknown, hparent⟩ := parentOf_of_climb hc hp
        have hstep := h.step hknown (h.not_mem hself) hparent
        have hstep' := h'.step hknown (h'.not_mem hself) hparent
        rw [reports_of_new hc hp (hstep.not_mem (hsub _ hparent)),
          reports_of_new hc hp (hstep'.not_mem (hsub _ hparent)), ih _ hparent hstep hstep',
          (ascend_eq_of_acc ctx (hsub _ hparent) hstep hstep').1]

end

section

variable (hu : Unmapped ix) (hapart : Apart ix.classes) (hself : Variant ix ix)

include hu hapart hself

/-- Drawing the view of a class meets the same issues whatever the index remembers. -/
theorem classView_notes (ctx : LinkContext) (c : ClassDecl) (parent : Option ClassView) :
    Answers ix ((Draft.classView ctx c parent).run [])
      (drawn ix ctx c parent, noted ix ctx c parent) := by
  have hagree :=
    Draft.classView_agree (coherent_variants hu hapart) (LinkContext.same_refl ctx) c parent []
  intro ix' hv
  obtain ⟨heq, hv', -⟩ := hagree ⟨hv, hself⟩
  exact ⟨heq, hv'⟩

theorem noted_congr (h : ctx.same ctx' = true) (c : ClassDecl) (parent : Option ClassView) :
    noted ix ctx c parent = noted ix ctx' c parent := by
  have hagree := Draft.classView_agree (coherent_variants hu hapart) h c parent [] ⟨hself, hself⟩
  unfold noted
  rw [hagree.1]

/-- The issues do not depend on how the context is written. -/
theorem reports_congr (h : ctx.same ctx' = true) : reports ix ctx = reports ix ctx' := by
  have hall : ∀ bound underway k, reports ix ctx bound underway k =
      reports ix ctx' bound underway k := by
    intro bound
    induction bound with
    | zero => intros; rfl
    | succ bound ih =>
      intro underway k
      simp only [reports, ih, noted_congr hu hapart hself h, ascend_congr hu hapart hself h]
  funext bound underway k
  exact hall bound underway k

end

/-! ## Building with memory -/

/-- The builder is set to a context, and the issues of all views it remembers are collected, each
once. -/
structure Recalls (ix : Index) (ctx : LinkContext) (b : Builder) : Prop where
  ready : Ready ix ctx b
  issues : ∀ k v, b.views.find? k = some v → reports ix ctx (ix.classes.size + 1) [] k ⊆ b.issues
  nodup : b.issues.Nodup

/-- What work of the builder `b` comes to that gives `a` and meets `issues`. -/
structure Collects {α : Type} (ix : Index) (ctx : LinkContext) (b : Builder) (a : α)
    (issues : List Issue) (r : α × Builder) : Prop where
  value : r.1 = a
  recalls : Recalls ix ctx r.2
  collected : ∀ issue, issue ∈ r.2.issues ↔ issue ∈ b.issues ∨ issue ∈ issues

theorem Recalls.idle {α : Type} {b : Builder} (h : Recalls ix ctx b) (a : α) :
    Collects ix ctx b a [] (a, b) :=
  ⟨rfl, h, by simp⟩

theorem Recalls.record {b : Builder} (h : Recalls ix ctx b) (more : List Issue) :
    Recalls ix ctx { b with issues := addIssues b.issues more } where
  ready := ⟨h.ready.context, h.ready.views⟩
  issues := fun k v hfind _ hissue => mem_addIssues.mpr (.inl (h.issues k v hfind hissue))
  nodup := nodup_addIssues h.nodup more

/-- A view is remembered whose issues are collected. -/
theorem Recalls.remember {b : Builder} (h : Recalls ix ctx b) {k : String} {v : ClassView}
    (hacc : Acc (ParentOf ix.classes) k)
    (hv : ascend ix ctx (ix.classes.size + 1) [] k = (some v, false))
    (hissues : reports ix ctx (ix.classes.size + 1) [] k ⊆ b.issues) :
    Recalls ix ctx { b with views := b.views.insert k v } where
  ready := (remember_makes hacc hv b h.ready _ (variant_forget ix)).1.2
  issues := by
    intro k' v' hfind
    rw [Table.find?_insert] at hfind
    split at hfind
    · rename_i heq
      rw [beq_iff_eq] at heq
      rw [heq]
      exact hissues
    · exact h.issues k' v' hfind
  nodup := h.nodup

/-- A question to the index, after which the work goes on with the builder as it is. -/
theorem ensures_lift_bind {α β : Type} {V : Index → Prop} {m : Lookup α} {Q : α → Prop}
    (h : Ensures V m Q) {f : α → Build β} {b : Builder} {R : β × Builder → Prop}
    (hf : ∀ a, Q a → Ensures V ((f a).run b) R) :
    Ensures V ((liftM m >>= f : Build β).run b) R := by
  intro i hi
  obtain ⟨hQ, hV⟩ := h i hi
  exact hf _ hQ _ hV

/-- The end of a build, when the view of the parent is there: the view of the class is drawn, its
issues are collected, and unless a cycle was met the view is remembered. -/
def finish (ctx : LinkContext) (k : String) (c : ClassDecl) (above : Option ClassView × Bool) :
    Build (Option ClassView × Bool) := do
  let (view, issues) ← ((Draft.classView ctx c above.1).run [] : Lookup _)
  record issues
  if !above.2 then
    modify fun b => { b with views := b.views.insert k view }
  return (some view, above.2)

section

variable {build : String → Build (Option ClassView × Bool)} {underway : List String}
  {c : ClassDecl} {p : String}

theorem buildParent_of_none (hp : c.parent = none) :
    buildParent build underway c = pure (none, false) := by
  simp only [buildParent, hp]

theorem buildParent_of_met (hp : c.parent = some p) (hmet : lower p ∈ underway) :
    buildParent build underway c = do record [.inheritanceCycle c.name]; return (none, true) := by
  have hcon : underway.contains (lower p) = true := by simpa using hmet
  simp only [buildParent, hp, hcon, if_true]

theorem buildParent_of_new (hp : c.parent = some p) (hnew : lower p ∉ underway) :
    buildParent build underway c = build p := by
  have hcon : underway.contains (lower p) = false := by simpa using hnew
  simp only [buildParent, hp, hcon, Bool.false_eq_true, if_false]

end

section

variable (hu : Unmapped ix) (hapart : Apart ix.classes) (hself : Variant ix ix)

include hu hapart hself

/-- At the end of a build its issues are collected, behind those met above. -/
theorem finish_collects {bound : Nat} {underway : List String} {k : String}
    (htrail : Trail (ParentOf ix.classes) ix.classes bound underway k) (hnew : k ∉ underway)
    {c : ClassDecl} {parent : Option ClassView} {cyclic : Bool}
    (hascend : ascend ix ctx bound underway k = (some (drawn ix ctx c parent), cyclic))
    {above : List Issue}
    (hreports : reports ix ctx bound underway k = above ++ noted ix ctx c parent) {b b' : Builder}
    (hb : Recalls ix ctx b)
    (habove : ∀ issue, issue ∈ b.issues ↔ issue ∈ b'.issues ∨ issue ∈ above) :
    Ensures (Variant ix) ((finish ctx k c (parent, cyclic)).run b)
      (Collects ix ctx b' (ascend ix ctx bound underway k) (reports ix ctx bound underway k)) := by
  refine ensures_lift_bind (classView_notes hu hapart hself ctx c parent) ?_
  rintro _ rfl
  have hrecorded := hb.record (noted ix ctx c parent)
  have hcollected : ∀ issue, issue ∈ addIssues b.issues (noted ix ctx c parent) ↔
      issue ∈ b'.issues ∨ issue ∈ reports ix ctx bound underway k := by
    intro issue
    rw [mem_addIssues, habove, hreports, List.mem_append, or_assoc]
  cases cyclic with
  | true => exact Ensures.pure ⟨hascend.symm, hrecorded, hcollected⟩
  | false =>
    -- no cycle was met, so a build of this class alone gives the same view and meets the same
    -- issues
    have hacc : Acc (ParentOf ix.classes) k := acc_of_ascend htrail hnew (by rw [hascend])
    have hstart := Trail.start (r := ParentOf ix.classes) (Nat.lt_succ_self ix.classes.size) k
    have hview : ascend ix ctx (ix.classes.size + 1) [] k =
        (some (drawn ix ctx c parent), false) := by
      rw [← (ascend_eq_of_acc ctx hacc htrail hstart).1, hascend]
    have hissues : reports ix ctx (ix.classes.size + 1) [] k ⊆
        addIssues b.issues (noted ix ctx c parent) := by
      intro issue hissue
      rw [← reports_eq_of_acc ctx hacc htrail hstart] at hissue
      exact (hcollected issue).mpr (.inr hissue)
    exact Ensures.pure ⟨hascend.symm, hrecorded.remember hacc hview hissues, hcollected⟩

/-- **Building meets the issues that are met without memory**, or has collected them before. -/
theorem buildView_collects (ctx : LinkContext)
    (hplain : ∀ k c, ix.classes.find? k = some c → ∀ p, c.parent = some p → Source.Plain p)
    (bound : Nat) : ∀ (underway : List String) (name : String), key name = Index.key name →
    Trail (ParentOf ix.classes) ix.classes bound underway (key name) → key name ∉ underway →
    ∀ {b : Builder}, Recalls ix ctx b →
      Ensures (Variant ix) ((buildView ctx bound underway name).run b)
      (Collects ix ctx b (ascend ix ctx bound underway (key name))
        (reports ix ctx bound underway (key name))) := by
  induction bound with
  | zero => intro underway name _ _ _ b hb; exact Ensures.pure (hb.idle _)
  | succ bound ih =>
    intro underway name hkey htrail hnew b hb
    have hdescribe := describe?_answers hu hapart name
    rw [← hkey] at hdescribe
    rw [buildView, StateT.run_bind, StateT.run_get, pure_bind]
    cases hmem : b.views.find? (key name) with
    | some view =>
      -- the issues of a remembered view are collected, wherever it was built from
      obtain ⟨hacc, hascend⟩ := hb.ready.views (key name) view hmem
      have hstart :=
        Trail.start (r := ParentOf ix.classes) (Nat.lt_succ_self ix.classes.size) (key name)
      have hissues := hb.issues (key name) view hmem
      rw [(ascend_eq_of_acc ctx hacc htrail hstart).1, hascend,
        reports_eq_of_acc ctx hacc htrail hstart]
      exact Ensures.pure
        ⟨rfl, hb, fun issue => ⟨.inl, fun h => h.elim id fun hissue => hissues hissue⟩⟩
    | none =>
      refine ensures_lift_bind hdescribe ?_
      rintro _ rfl
      cases hc : (climb ix.classes ix.bound [] (key name)).1 with
      | none =>
        rw [ascend_of_unknown hc, reports_of_unknown hc]
        exact Ensures.pure (hb.idle _)
      | some c =>
        show Ensures (Variant ix)
          ((buildParent (buildView ctx bound (key name :: underway)) (key name :: underway) c >>=
            finish ctx (key name) c).run b) _
        cases hp : c.parent with
        | none =>
          have hreports : reports ix ctx (bound + 1) underway (key name) =
              [] ++ noted ix ctx c none := by
            rw [reports_of_root hc hp, List.nil_append]
          rw [buildParent_of_none hp, pure_bind]
          exact finish_collects hu hapart hself htrail hnew
            (ascend_of_root hc hp) hreports hb (by simp)
        | some p =>
          obtain ⟨hknown, hparent⟩ := parentOf_of_climb hc hp
          by_cases hmet : lower p ∈ key name :: underway
          · rw [buildParent_of_met hp hmet]
            exact finish_collects hu hapart hself htrail hnew (ascend_of_met hc hp hmet)
              (reports_of_met hc hp hmet)
              (hb.record [.inheritanceCycle c.name]) fun issue => mem_addIssues
          · rw [buildParent_of_new hp hmet]
            -- the parent's name is lowered as it stands, which is its key since no backslash leads
            -- it
            obtain ⟨own, hown, hhead⟩ := headed_of_climb hc
            obtain ⟨hlower, hlower'⟩ := key_of_plain (hplain _ own hown p (hhead.parent ▸ hp))
            have hstep := htrail.step hknown hnew hparent
            rw [← hlower] at hstep hmet
            rw [StateT.run_bind]
            refine (ih _ p (hlower.trans hlower'.symm) hstep hmet hb).bind fun r hr => ?_
            obtain ⟨⟨parent, cyclic⟩, b'⟩ := r
            rw [hlower] at hmet hr
            have hvalue : ascend ix ctx bound (key name :: underway) (lower p) =
                (parent, cyclic) := hr.value.symm
            refine finish_collects hu hapart hself htrail hnew ?_ ?_ hr.recalls hr.collected
            · rw [ascend_of_new hc hp hmet, hvalue]
            · rw [reports_of_new hc hp hmet, hvalue]

/-! ## A builder's whole life -/

/-- Between two builds the issues of all remembered views are collected, each once. -/
structure Rests (ix : Index) (b : Builder) : Prop where
  idle : Idle ix b
  issues : ∀ ctx, b.context = some ctx → ∀ k v, b.views.find? k = some v →
    reports ix ctx (ix.classes.size + 1) [] k ⊆ b.issues
  nodup : b.issues.Nodup

omit hu hapart hself in
theorem rests_new (ix : Index) : Rests ix {} := ⟨idle_new ix, by simp, List.nodup_nil⟩

theorem Recalls.rests {b : Builder} (h : Recalls ix ctx b) : Rests ix b := by
  refine ⟨h.ready.idle hu hapart hself, fun ctx₁ hctx₁ => ?_, h.nodup⟩
  obtain ⟨ctx₀, hctx₀, hsame⟩ := h.ready.context
  obtain rfl := Option.some.inj (hctx₀.symm.trans hctx₁)
  rw [reports_congr hu hapart hself hsame]
  exact h.issues

/-- A builder that is set to another context forgets its views and keeps its issues. -/
theorem Rests.useContext {b : Builder} (h : Rests ix b) (ctx : LinkContext) :
    Recalls ix ctx
      (if b.context.any (·.same ctx) then b else { b with views := {}, context := some ctx }) := by
  refine ⟨useContext_ready hu hapart hself h.idle ctx, ?_, ?_⟩
  · split
    · rename_i hany
      obtain ⟨ctx₀, hctx₀, hsame⟩ := (Option.any_eq_true _ _).mp hany
      rw [← reports_congr hu hapart hself hsame]
      exact h.issues ctx₀ hctx₀
    · intro k v hfind
      simp at hfind
  · split
    · exact h.nodup
    · exact h.nodup

end

/-- A class is known under its name in lower case. -/
theorem key_eq_lower {classes : Table ClassDecl} (hf : Filed classes) {k : String} {c : ClassDecl}
    (hc : classes.find? k = some c) : k = lower c.name := by
  rw [← hf.key_name k c hc]
  exact (key_of_plain (hf.qualified k c hc).head).2

/-- A class is known only by names with at most one backslash in front, for which the builder and
the index have the same key. -/
theorem key_eq_of_known (hf : Filed ix.classes) {name : String} {c : ClassDecl}
    (hc : ix.classes.find? (Index.key name) = some c) : key name = Index.key name := by
  refine key_eq_of_rootedOnce ?_
  rintro ⟨rest, hrest⟩
  -- otherwise the key starts with a backslash, and so does the name of the class
  have htwo : name.toList = '\\' :: '\\' :: rest := hrest.symm
  obtain ⟨d, tail, hname, hd⟩ := (hf.qualified _ c hc).head
  have hkey := key_eq_lower hf hc
  rw [Index.key, Source.unrooted_of_rooted htwo] at hkey
  have hhead := congrArg (fun s => s.toList.head?) hkey
  simp only [lower, String.toList_ofList, hname, List.map_cons, List.head?_cons] at hhead
  exact hd (Name.toLower_eq_backslash (Option.some.inj hhead).symm)

/-- The issues of building a class by a name, without memory. -/
def reportsOf (ix : Index) (ctx : LinkContext) (name : String) : List Issue :=
  if key name = Index.key name then reports ix ctx (2 * ix.bound) [] (key name) else []

section

variable (hu : Unmapped ix) (hapart : Apart ix.classes) (hself : Variant ix ix)
  (hf : Filed ix.classes)
  (hplain : ∀ k c, ix.classes.find? k = some c → ∀ p, c.parent = some p → Source.Plain p)

include hu hapart hself hf hplain

/-- Building by any name. By one with more backslashes in front only a remembered view is found. -/
theorem buildView_reports (name : String) {b : Builder} (hb : Recalls ix ctx b) :
    ∃ a, Ensures (Variant ix) ((buildView ctx (2 * ix.bound) [] name).run b)
      (Collects ix ctx b a (reportsOf ix ctx name)) := by
  have hroom : ix.classes.size < 2 * ix.bound := by unfold Index.bound; omega
  unfold reportsOf
  split
  · rename_i hkey
    exact ⟨_,
      buildView_collects hu hapart hself ctx hplain _ [] name hkey
        (Trail.start hroom _) (by simp) hb⟩
  · rename_i hkey
    have hunknown : ix.classes.find? (Index.key name) = none := by
      by_contra hne
      obtain ⟨c, hc⟩ := Option.ne_none_iff_exists'.mp hne
      exact hkey (key_eq_of_known hf hc)
    obtain ⟨bound, hbound⟩ : ∃ n, 2 * ix.bound = n + 1 := ⟨2 * ix.bound - 1, by omega⟩
    rw [hbound, buildView, StateT.run_bind, StateT.run_get, pure_bind]
    cases b.views.find? (key name) with
    | some view => exact ⟨(some view, false), Ensures.pure (hb.idle _)⟩
    | none =>
      have hdescribe := describe?_answers hu hapart name
      rw [climb_of_unknown hunknown] at hdescribe
      refine ⟨(none, false), ensures_lift_bind hdescribe ?_⟩
      rintro _ rfl
      exact Ensures.pure (hb.idle _)

/-- **One build** collects the issues that it meets without memory, and keeps those collected
before. -/
theorem build_collects {b : Builder} (hb : Rests ix b) (ctx : LinkContext) (name : String) :
    Ensures (Variant ix) ((build ctx name).run b) fun r => Rests ix r.2 ∧
      ∀ issue, issue ∈ r.2.issues ↔ issue ∈ b.issues ∨ issue ∈ reportsOf ix ctx name := by
  have hready := hb.useContext hu hapart hself ctx
  have hsame : (if b.context.any (·.same ctx) then b
      else { b with views := {}, context := some ctx }).issues = b.issues := by
    split
    · rfl
    · rfl
  obtain ⟨a, hview⟩ := buildView_reports hu hapart hself hf hplain name hready
  rw [build_eq]
  intro ix' hv
  obtain ⟨hcollects, hv'⟩ := hview ix' hv
  rw [← hv.bound] at hcollects hv'
  refine ⟨⟨hcollects.recalls.rests hu hapart hself, fun issue => ?_⟩, hv'⟩
  rw [← hsame]
  exact hcollects.collected issue

/-- A run of builds collects the issues of each. -/
theorem builds_collect (calls : List (LinkContext × String)) : ∀ {b : Builder}, Rests ix b →
    Ensures (Variant ix) ((calls.mapM fun call => build call.1 call.2).run b) fun r =>
      Rests ix r.2 ∧
      ∀ issue, issue ∈ r.2.issues ↔ issue ∈ b.issues ∨
        ∃ call ∈ calls, issue ∈ reportsOf ix call.1 call.2 := by
  induction calls with
  | nil => intro b hb; exact Ensures.pure ⟨hb, by simp⟩
  | cons call calls ih =>
    intro b hb
    rw [List.mapM_cons, StateT.run_bind]
    refine (build_collects hu hapart hself hf hplain hb call.1 call.2).bind fun r hr => ?_
    rw [StateT.run_bind]
    refine (ih hr.1).bind fun rs hrs => Ensures.pure ⟨hrs.1, fun issue => ?_⟩
    rw [hrs.2, hr.2, List.exists_mem_cons_iff, or_assoc]

end

/-! ## Every index -/

variable {project : Option Project}

/-- Builds keep an index sound, like descriptions. -/
theorem sound_reached (hu : Unmapped { project }) (h : Reached project ix) : Sound ix := by
  refine h.holds ?_ ?_ ?_ ?_
  · exact fun _ => ⟨hu, sameTable_of_nothing rfl, by simp, fun _ => variant_of_nothing rfl⟩
  · intro ix file content hs
    unfold Index.add
    generalize hdecls : ix.parser.classes file content = decls
    refine ⟨hs.unmapped, sameTable_of_nothing rfl, ?_, fun _ => variant_of_nothing rfl⟩
    intro k c hc
    rcases mem_or_find?_of_addDecls hc with hmem | hbefore
    · exact ⟨ix.parser, file, content, hdecls ▸ hmem⟩
    · exact hs.declared k c hbefore
  · intro ix name _ hs
    rw [own_of_unmapped hs.unmapped]
    exact hs
  · intro ix _ hs
    refine ⟨fun i => SameTable ix i ∧ (Apart ix.classes → Variant ix i),
      ⟨hs.table, hs.memory⟩, ?_, ?_⟩
    · rintro i ⟨htable, hmemory⟩
      refine ⟨htable.unmapped hs.unmapped, htable.self,
        by rw [htable.classes]; exact hs.declared, fun hapart => ?_⟩
      exact (hmemory (htable.classes ▸ hapart)).self
    · rintro name i ⟨htable, hmemory⟩
      refine ⟨trivial, (describe?_finds hs.unmapped name i htable).2, fun hapart => ?_⟩
      exact (describe?_answers hs.unmapped hapart name i (hmemory hapart)).2

/-- No backslash stands in front of the name of a parent. -/
theorem parent_plain_of_sound (hs : Sound ix) :
    ∀ k c, ix.classes.find? k = some c → ∀ p, c.parent = some p → Source.Plain p := by
  intro k c hc p hp
  obtain ⟨parser, path, content, hmem⟩ := hs.declared k c hc
  exact Source.parent_plain hmem hp

/--
However the builds of a builder follow each other, it has collected each issue once, and what it
has collected are the issues that a new builder collects for each class alone.
-/
theorem issues_eq_union (hu : Unmapped { project }) (h : Reached project ix)
    (huses : UsesTraits ix.classes) (calls : List (LinkContext × String)) :
    ((calls.mapM fun call => build call.1 call.2).run {} ix).1.2.issues.Nodup ∧
      ∀ issue, issue ∈ ((calls.mapM fun call => build call.1 call.2).run {} ix).1.2.issues ↔
        ∃ call ∈ calls, issue ∈ ((build call.1 call.2).run {} ix).1.2.issues := by
  have hs := sound_reached hu h
  have hf := (kept_reached hu h).filed
  have hapart := hs.apart huses
  have hself := hs.memory hapart
  have hplain := parent_plain_of_sound hs
  obtain ⟨⟨hrests, hall⟩, -⟩ :=
    builds_collect hs.unmapped hapart hself hf hplain calls (rests_new ix) ix hself
  refine ⟨hrests.nodup, fun issue => ?_⟩
  rw [hall]
  simp only [List.not_mem_nil, false_or]
  refine exists_congr fun call => and_congr_right fun _ => ?_
  obtain ⟨⟨-, halone⟩, -⟩ :=
    build_collects hs.unmapped hapart hself hf hplain (rests_new ix) call.1 call.2 ix hself
  rw [halone]
  simp

/-- Two classes that extend each other, and a class below one with a text that cannot be
inherited. -/
def markedIndex : Index :=
  ({} : Index).add "a.php"
    "<?php class A extends B {} class B extends A {} /** @inheritDoc */ class P {}
    class Q extends P {}"

/-- A class below one with a text that cannot be inherited, that class from memory, and two classes
that extend each other, each of which is reported by the build of the other. The text is reported
for the first class already, and not again when its own view comes from memory. -/
theorem issues_eq_union_cycle :
    let ctx := LinkContext.new "App" "/src" "/"
    let calls :=
      [(ctx, "Q"), (ctx, "P"), (ctx, "A"), (LinkContext.new "Lib" "/lib" "/", "B"), (ctx, "C")]
    let collected := ((calls.mapM fun call => build call.1 call.2).run {} markedIndex).1.2.issues
    UsesTraits markedIndex.classes ∧
      (((build ctx "Q").run {} markedIndex).1.2.views.find? (key "P")).isSome = true ∧
      Issue.unresolvedInherit "P" ∈ ((build ctx "P").run {} markedIndex).1.2.issues ∧
      Issue.inheritanceCycle "B" ∈ ((build ctx "A").run {} markedIndex).1.2.issues ∧
      (collected.Nodup ∧ ∀ issue, issue ∈ collected ↔
        ∃ call ∈ calls, issue ∈ ((build call.1 call.2).run {} markedIndex).1.2.issues) ∧
      Issue.unresolvedInherit "P" ∈ collected ∧ Issue.inheritanceCycle "B" ∈ collected := by
  intro ctx calls collected
  have hreach : Reached none markedIndex := .add _ _ .new
  -- the source is read once for all four
  obtain ⟨huses, hremembered, hmarker, hcycle⟩ : UsesTraits markedIndex.classes ∧
      (((build ctx "Q").run {} markedIndex).1.2.views.find? (key "P")).isSome = true ∧
      Issue.unresolvedInherit "P" ∈ ((build ctx "P").run {} markedIndex).1.2.issues ∧
      Issue.inheritanceCycle "B" ∈ ((build ctx "A").run {} markedIndex).1.2.issues := by
    decide +kernel
  have hunion : collected.Nodup ∧ ∀ issue, issue ∈ collected ↔
      ∃ call ∈ calls, issue ∈ ((build call.1 call.2).run {} markedIndex).1.2.issues :=
    issues_eq_union (by intro p hp; simp at hp) hreach huses calls
  have hcollects : ∀ {issue name}, (ctx, name) ∈ calls →
      issue ∈ ((build ctx name).run {} markedIndex).1.2.issues → issue ∈ collected :=
    fun {issue name} hcall hissue =>
      (hunion.2 issue).mpr ⟨(ctx, name), hcall, by simpa only using hissue⟩
  exact ⟨huses, hremembered, hmarker, hcycle, hunion, hcollects (by simp [calls]) hmarker,
    hcollects (by simp [calls]) hcycle⟩

end ClassDocs.Builder

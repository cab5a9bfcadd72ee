import ClassDocs.Builder
import ClassDocs.Proofs.Assembly

/-!
# The memory of a builder

A builder remembers the views it has finished, under the context they were made with. `ascend`
builds the view of a class without a builder: it reads the flattened classes and draws one view
after another on the way up. The argument is the one for flattened classes once more, with the
parents alone as the class graph: from a class whose parents form no cycle every build is the same
(`ascend_eq_of_acc`), and a build that met no cycle shows that there is none (`acc_of_ascend`). So
a builder only remembers what it would build again.

Views remembered under one context are used under another that is the same for `==`, and that is
right because both give the same links (`ascend_congr`).
-/

namespace ClassDocs.Builder

open Index Text

variable {ix : Index} {ctx ctx' : LinkContext}

/-- `ParentOf classes p k`: the class of key `k` has the parent of key `p`. -/
def ParentOf (classes : Table ClassDecl) (p k : String) : Prop :=
  ∃ c, classes.find? k = some c ∧ ∃ name, c.parent = some name ∧ lower name = p

/-- The view of a flattened class, given the view of its parent. -/
def drawn (ix : Index) (ctx : LinkContext) (c : ClassDecl) (parent : Option ClassView) :
    ClassView :=
  ((Draft.classView ctx c parent).run [] ix).1.1

/-- The view of the class of a key, and whether a cycle was met on the way up, built without
memory. -/
def ascend (ix : Index) (ctx : LinkContext) : Nat → List String → String → Option ClassView × Bool
  | 0, _, _ => (none, false)
  | bound + 1, underway, k =>
    match (climb ix.classes ix.bound [] k).1 with
    | none => (none, false)
    | some c =>
      let above := match c.parent with
        | none => (none, false)
        | some p =>
          if (k :: underway).contains (lower p) then (none, true)
          else ascend ix ctx bound (k :: underway) (lower p)
      (some (drawn ix ctx c above.1), above.2)

/-! ## Where the parents form no cycle -/

section

variable {k : String} {c : ClassDecl} {bound : Nat} {underway : List String}

theorem ascend_of_unknown (h : (climb ix.classes ix.bound [] k).1 = none) :
    ascend ix ctx bound underway k = (none, false) := by
  cases bound with
  | zero => rfl
  | succ bound => simp only [ascend, h]

theorem ascend_of_root (h : (climb ix.classes ix.bound [] k).1 = some c) (hp : c.parent = none) :
    ascend ix ctx (bound + 1) underway k = (some (drawn ix ctx c none), false) := by
  simp only [ascend, h, hp]

theorem ascend_of_met (h : (climb ix.classes ix.bound [] k).1 = some c) {p : String}
    (hp : c.parent = some p) (hmet : lower p ∈ k :: underway) :
    ascend ix ctx (bound + 1) underway k = (some (drawn ix ctx c none), true) := by
  have hcon : (k :: underway).contains (lower p) = true := by simpa using hmet
  simp only [ascend, h, hp, hcon, if_true]

theorem ascend_of_new (h : (climb ix.classes ix.bound [] k).1 = some c) {p : String}
    (hp : c.parent = some p) (hnew : lower p ∉ k :: underway) :
    ascend ix ctx (bound + 1) underway k =
      (some (drawn ix ctx c (ascend ix ctx bound (k :: underway) (lower p)).1),
        (ascend ix ctx bound (k :: underway) (lower p)).2) := by
  have hcon : (k :: underway).contains (lower p) = false := by simpa using hnew
  simp only [ascend, h, hp, hcon, Bool.false_eq_true, if_false]

/-- The parent of a flattened class is above its key. -/
theorem parentOf_of_climb (h : (climb ix.classes ix.bound [] k).1 = some c) {p : String}
    (hp : c.parent = some p) :
    ix.classes.contains k = true ∧ ParentOf ix.classes (lower p) k := by
  obtain ⟨own, hown, hhead⟩ := headed_of_climb h
  exact ⟨contains_of_find? hown, own, hown, p, hhead.parent ▸ hp, rfl⟩

/-- **From a class whose parents form no cycle every build is the same**, and none meets a
cycle. -/
theorem ascend_eq_of_acc (ctx : LinkContext) (hacc : Acc (ParentOf ix.classes) k) :
    ∀ {b b' : Nat} {s s' : List String}, Trail (ParentOf ix.classes) ix.classes b s k →
      Trail (ParentOf ix.classes) ix.classes b' s' k →
      ascend ix ctx b s k = ascend ix ctx b' s' k ∧ (ascend ix ctx b s k).2 = false := by
  induction hacc with
  | intro k hsub ih =>
    have hself : Acc (ParentOf ix.classes) k := ⟨k, hsub⟩
    intro b b' s s' h h'
    obtain ⟨n, rfl⟩ := h.pos
    obtain ⟨n', rfl⟩ := h'.pos
    cases hc : (climb ix.classes ix.bound [] k).1 with
    | none => simp [ascend_of_unknown hc]
    | some c =>
      cases hp : c.parent with
      | none => simp [ascend_of_root hc hp]
      | some p =>
        obtain ⟨hknown, hparent⟩ := parentOf_of_climb hc hp
        have hstep := h.step hknown (h.not_mem hself) hparent
        have hstep' := h'.step hknown (h'.not_mem hself) hparent
        rw [ascend_of_new hc hp (hstep.not_mem (hsub _ hparent)),
          ascend_of_new hc hp (hstep'.not_mem (hsub _ hparent))]
        obtain ⟨heq, hflag⟩ := ih _ hparent hstep hstep'
        exact ⟨by rw [heq], hflag⟩

/-- **A build that meets no cycle** shows that the parents form none. -/
theorem acc_of_ascend : ∀ {underway : List String} {k : String},
    Trail (ParentOf ix.classes) ix.classes bound underway k → k ∉ underway →
    (ascend ix ctx bound underway k).2 = false → Acc (ParentOf ix.classes) k := by
  induction bound with
  | zero =>
    intro underway k h _ _
    obtain ⟨n, hn⟩ := h.pos
    omega
  | succ bound ih =>
    intro underway k h hk hflag
    refine ⟨k, ?_⟩
    rintro _ ⟨own, hown, p, hp, rfl⟩
    -- the parent that the build follows is that of the flattened class, which is the one declared
    obtain ⟨m, hm⟩ := climb_found hown (ix.bound - 1) []
    have hbound : ix.bound - 1 + 1 = ix.bound := by unfold Index.bound; omega
    rw [hbound] at hm
    obtain ⟨own', hown', hhead⟩ := headed_of_climb hm
    obtain rfl : own = own' := Option.some.inj (hown.symm.trans hown')
    rw [← hhead.parent] at hp
    obtain ⟨hknown, hparent⟩ := parentOf_of_climb hm hp
    by_cases hmet : lower p ∈ k :: underway
    · rw [ascend_of_met hm hp hmet] at hflag
      exact absurd hflag (by simp)
    · rw [ascend_of_new hm hp hmet] at hflag
      exact ih (h.step hknown hk hparent) hmet hflag

end

/-! ## Contexts -/

section

variable (hu : Unmapped ix) (hapart : Apart ix.classes) (hself : Variant ix ix)

include hu hapart hself

theorem drawn_congr (h : ctx.same ctx' = true) (c : ClassDecl) (parent : Option ClassView) :
    drawn ix ctx c parent = drawn ix ctx' c parent := by
  have hagree := Draft.classView_agree (coherent_variants hu hapart) h c parent [] ⟨hself, hself⟩
  unfold drawn
  rw [hagree.1]

/-- What is built does not depend on how the context is written. -/
theorem ascend_congr (h : ctx.same ctx' = true) : ascend ix ctx = ascend ix ctx' := by
  have hall : ∀ bound underway k, ascend ix ctx bound underway k =
      ascend ix ctx' bound underway k := by
    intro bound
    induction bound with
    | zero => intros; rfl
    | succ bound ih =>
      intro underway k
      simp only [ascend, ih, drawn_congr hu hapart hself h]
  funext bound underway k
  exact hall bound underway k

/-- Drawing the view of a class gives the same view whatever the index remembers. -/
theorem classView_answers (ctx : LinkContext) (c : ClassDecl) (parent : Option ClassView) :
    ∃ issues,
      Answers ix ((Draft.classView ctx c parent).run []) (drawn ix ctx c parent, issues) := by
  have hagree :=
    Draft.classView_agree (coherent_variants hu hapart) (LinkContext.same_refl ctx) c parent []
  refine ⟨((Draft.classView ctx c parent).run [] ix).1.2, fun ix' hv => ?_⟩
  obtain ⟨heq, hv', -⟩ := hagree ⟨hv, hself⟩
  exact ⟨heq, hv'⟩

end

/-! ## Names and keys -/

/-- At most one backslash stands in front of the name. -/
def RootedOnce (name : String) : Prop := ¬ ['\\', '\\'] <+: name.toList

instance (name : String) : Decidable (RootedOnce name) := inferInstanceAs (Decidable (¬ _))

theorem key_of_plain {name : String} (h : Source.Plain name) :
    key name = lower name ∧ Index.key name = lower name := by
  obtain ⟨c, rest, hname, hc⟩ := h
  have hroot : Name.withoutRoot name = name := by
    rw [Name.withoutRoot, hname, List.dropWhile_cons_of_neg (by simpa using hc), ← hname,
      String.ofList_toList]
  exact ⟨by rw [key, hroot], by rw [Index.key, Source.unrooted_of_plain ⟨c, rest, hname, hc⟩]⟩

/-- A builder and its index use the same key for a name with at most one backslash in front. -/
theorem key_eq_of_rootedOnce {name : String} (h : RootedOnce name) :
    key name = Index.key name := by
  cases hname : name.toList with
  | nil =>
    have hempty : name = "" := String.toList_eq_nil_iff.mp hname
    subst hempty
    rfl
  | cons c rest =>
    by_cases hc : c = '\\'
    · subst hc
      have hdrop : rest.dropWhile (· == '\\') = rest := by
        cases rest with
        | nil => rfl
        | cons d rest =>
          refine List.dropWhile_cons_of_neg ?_
          intro hd
          rw [beq_iff_eq] at hd
          subst hd
          exact h ⟨rest, by rw [hname]; rfl⟩
      rw [key, Index.key, Name.withoutRoot, Source.unrooted_of_rooted hname, hname]
      rw [List.dropWhile_cons_of_pos (by rfl), hdrop]
    · obtain ⟨hkey, hkey'⟩ := key_of_plain ⟨c, rest, hname, hc⟩
      rw [hkey, hkey']

/-! ## Building with memory -/

/-- Every remembered view is what the context gives for a class whose parents form no cycle. -/
def Remembers (ix : Index) (ctx : LinkContext) (b : Builder) : Prop :=
  ∀ k v, b.views.find? k = some v →
    Acc (ParentOf ix.classes) k ∧ ascend ix ctx (ix.classes.size + 1) [] k = (some v, false)

/-- The builder is set to a context. -/
structure Ready (ix : Index) (ctx : LinkContext) (b : Builder) : Prop where
  context : ∃ ctx₀, b.context = some ctx₀ ∧ ctx₀.same ctx = true
  views : Remembers ix ctx b

/-- Between two builds the remembered views are those of the context the builder was last set
to. -/
def Idle (ix : Index) (b : Builder) : Prop := ∀ ctx, b.context = some ctx → Remembers ix ctx b

theorem idle_new (ix : Index) : Idle ix {} := by
  intro ctx h
  simp at h

/-- Work of a builder that is set to a context gives `a`, whatever is remembered. -/
def Makes {α : Type} (ix : Index) (ctx : LinkContext) (m : Build α) (a : α) : Prop :=
  ∀ b, Ready ix ctx b → Ensures (Variant ix) (m.run b) fun r => r.1 = a ∧ Ready ix ctx r.2

theorem Makes.pure {α : Type} (a : α) : Makes ix ctx (pure a) a :=
  fun _ hb => Ensures.pure ⟨rfl, hb⟩

theorem Makes.bind {α β : Type} {m : Build α} {f : α → Build β} {a : α} {c : β}
    (hm : Makes ix ctx m a) (hf : Makes ix ctx (f a) c) : Makes ix ctx (m >>= f) c :=
  fun b hb => (hm b hb).bind fun _ hr => hr.1 ▸ hf _ hr.2

theorem Makes.lift {α : Type} {m : Lookup α} {a : α} (h : Answers ix m a) :
    Makes ix ctx (liftM m) a := by
  intro b hb
  show Ensures (Variant ix) (m >>= fun a => Pure.pure (a, b)) _
  exact Ensures.bind h fun _ ha => Ensures.pure ⟨ha, hb⟩

/-- Collecting issues leaves the views alone. -/
theorem record_makes (issues : List Issue) : Makes ix ctx (record issues) () :=
  fun _ hb => Ensures.pure ⟨rfl, hb.context, hb.views⟩

/-- A view that may be remembered is put in. -/
theorem remember_makes {k : String} {v : ClassView} (hacc : Acc (ParentOf ix.classes) k)
    (hv : ascend ix ctx (ix.classes.size + 1) [] k = (some v, false)) :
    Makes ix ctx (modify fun b => { b with views := b.views.insert k v }) () := by
  refine fun b hb => Ensures.pure ⟨rfl, hb.context, ?_⟩
  intro k' v' hfind
  rw [Table.find?_insert] at hfind
  split at hfind
  · rename_i heq
    obtain rfl := Option.some.inj hfind
    rw [beq_iff_eq] at heq
    subst heq
    exact ⟨hacc, hv⟩
  · exact hb.views k' v' hfind

/-- A build is the search for the view, with the outcome read off its first half. -/
theorem build_eq (ctx : LinkContext) (name : String) :
    build ctx name = (do
      useContext ctx
      let ix ← (get : Lookup Index)
      let found ← buildView ctx (2 * ix.bound) [] name
      return described name found.1) := by
  refine bind_congr fun _ => bind_congr fun ix => bind_congr fun found => ?_
  rcases found with ⟨_ | view, cyclic⟩
  · rfl
  · rfl

theorem buildOnce_apply (ctx : LinkContext) (name : String) (i : Index) :
    (buildOnce ctx name i).1 =
      (described name
          ((buildView ctx (2 * i.bound) [] name).run { context := some ctx } i).1.1.1).map
        fun view => (view,
          ((buildView ctx (2 * i.bound) [] name).run { context := some ctx } i).1.2.issues) := by
  rw [buildOnce, build_eq]
  rfl

section

variable (hu : Unmapped ix) (hapart : Apart ix.classes) (hself : Variant ix ix)

include hu hapart hself

/-- The end of a build: the view is drawn, and remembered if no cycle was met. -/
theorem finish_makes {bound : Nat} {underway : List String} {k : String}
    (htrail : Trail (ParentOf ix.classes) ix.classes bound underway k) (hnew : k ∉ underway)
    {c : ClassDecl} {parent : Option ClassView} {cyclic : Bool}
    (hascend : ascend ix ctx bound underway k = (some (drawn ix ctx c parent), cyclic)) :
    Makes ix ctx (do
      let (view, issues) ← ((Draft.classView ctx c parent).run [] : Lookup _)
      record issues
      if !cyclic then
        modify fun b => { b with views := b.views.insert k view }
      return (some view, cyclic)) (ascend ix ctx bound underway k) := by
  obtain ⟨issues, hview⟩ := classView_answers hu hapart hself ctx c parent
  refine (Makes.lift hview).bind ?_
  refine (record_makes issues).bind ?_
  rw [hascend]
  cases cyclic with
  | true => exact Makes.pure _
  | false =>
    -- no cycle was met, so a build of this class alone gives the same view
    have hacc : Acc (ParentOf ix.classes) k := acc_of_ascend htrail hnew (by rw [hascend])
    have hstart := Trail.start (r := ParentOf ix.classes) (Nat.lt_succ_self ix.classes.size) k
    have hsame := (ascend_eq_of_acc ctx hacc htrail hstart).1
    exact (remember_makes hacc (by rw [← hsame, hascend])).bind (Makes.pure _)

/-- **Building answers what is built without memory.** -/
theorem buildView_makes (ctx : LinkContext)
    (hplain : ∀ k c, ix.classes.find? k = some c → ∀ p, c.parent = some p → Source.Plain p)
    (bound : Nat) : ∀ (underway : List String) (name : String), key name = Index.key name →
    Trail (ParentOf ix.classes) ix.classes bound underway (key name) → key name ∉ underway →
    Makes ix ctx (buildView ctx bound underway name)
      (ascend ix ctx bound underway (key name)) := by
  induction bound with
  | zero => intro underway name _ _ _; exact Makes.pure _
  | succ bound ih =>
    intro underway name hkey htrail hnew b hb
    have hdescribe := describe?_answers hu hapart name
    rw [← hkey] at hdescribe
    rw [buildView, StateT.run_bind, StateT.run_get, pure_bind]
    cases hmem : b.views.find? (key name) with
    | some view =>
      -- what is remembered was built from elsewhere, with other classes underway
      obtain ⟨hacc, hascend⟩ := hb.views (key name) view hmem
      have hstart :=
        Trail.start (r := ParentOf ix.classes) (Nat.lt_succ_self ix.classes.size) (key name)
      rw [(ascend_eq_of_acc ctx hacc htrail hstart).1, hascend]
      exact Makes.pure _ b hb
    | none =>
      refine (Makes.lift hdescribe).bind ?_ b hb
      cases hc : (climb ix.classes ix.bound [] (key name)).1 with
      | none => rw [ascend_of_unknown hc]; exact Makes.pure _
      | some c =>
        simp only [buildParent]
        cases hp : c.parent with
        | none =>
          refine (Makes.pure (none, false)).bind ?_
          exact finish_makes hu hapart hself htrail hnew (ascend_of_root hc hp)
        | some p =>
          obtain ⟨hknown, hparent⟩ := parentOf_of_climb hc hp
          by_cases hmet : lower p ∈ key name :: underway
          · have hcon : (key name :: underway).contains (lower p) = true := by simpa using hmet
            simp only [hcon, if_true]
            refine ((record_makes _).bind (Makes.pure (none, true))).bind ?_
            exact finish_makes hu hapart hself htrail hnew (ascend_of_met hc hp hmet)
          · have hcon : (key name :: underway).contains (lower p) = false := by simpa using hmet
            simp only [hcon, Bool.false_eq_true, if_false]
            -- the parent's name is lowered as it stands, which is its key since no backslash leads
            -- it
            obtain ⟨own, hown, hhead⟩ := headed_of_climb hc
            obtain ⟨hlower, hlower'⟩ := key_of_plain (hplain _ own hown p (hhead.parent ▸ hp))
            have hstep := htrail.step hknown hnew hparent
            rw [← hlower] at hstep hmet
            refine (ih _ p (hlower.trans hlower'.symm) hstep hmet).bind ?_
            rw [hlower] at hmet ⊢
            exact finish_makes hu hapart hself htrail hnew (ascend_of_new hc hp hmet)

/-! ## A builder's whole life -/

/-- What building a class comes to without memory. -/
def built (ix : Index) (ctx : LinkContext) (name : String) : Except Failure ClassView :=
  described name (ascend ix ctx (2 * ix.bound) [] (key name)).1

theorem Ready.idle {b : Builder} (h : Ready ix ctx b) : Idle ix b := by
  intro ctx₁ hctx₁
  obtain ⟨ctx₀, hctx₀, hsame⟩ := h.context
  obtain rfl := Option.some.inj (hctx₀.symm.trans hctx₁)
  unfold Remembers
  rw [ascend_congr hu hapart hself hsame]
  exact h.views

/-- A builder that is set to another context forgets its views. -/
theorem useContext_ready {b : Builder} (h : Idle ix b) (ctx : LinkContext) :
    Ready ix ctx
      (if b.context.any (·.same ctx) then b else { b with views := {}, context := some ctx }) := by
  split
  · rename_i hany
    obtain ⟨ctx₀, hctx₀, hsame⟩ := (Option.any_eq_true _ _).mp hany
    refine ⟨⟨ctx₀, hctx₀, hsame⟩, ?_⟩
    unfold Remembers
    rw [← ascend_congr hu hapart hself hsame]
    exact h ctx₀ hctx₀
  · refine ⟨⟨ctx, rfl, LinkContext.same_refl ctx⟩, ?_⟩
    intro k v hfind
    simp at hfind

/-- **One build**: what it gives does not depend on the builds before, and it leaves the builder
fit for the next. -/
theorem build_gives
    (hplain : ∀ k c, ix.classes.find? k = some c → ∀ p, c.parent = some p → Source.Plain p)
    {b : Builder} (hb : Idle ix b) (ctx : LinkContext) {name : String} (hname : RootedOnce name) :
    Ensures (Variant ix) ((build ctx name).run b) fun r => r.1 = built ix ctx name ∧
      Idle ix r.2 := by
  have hready := useContext_ready hu hapart hself hb ctx
  have hroom : ix.classes.size < 2 * ix.bound := by unfold Index.bound; omega
  have hview :=
    buildView_makes hu hapart hself ctx hplain (2 * ix.bound) [] name (key_eq_of_rootedOnce hname)
    (Trail.start hroom _) (by simp)
  have hrest : Makes ix ctx (do
      let found ← buildView ctx (2 * ix.bound) [] name
      return described name found.1) (built ix ctx name) := hview.bind (Makes.pure _)
  rw [build_eq]
  intro ix' hv
  obtain ⟨⟨hval, hready'⟩, hv'⟩ := hrest _ hready ix' hv
  rw [← hv.bound] at hval hready' hv'
  exact ⟨⟨hval, hready'.idle hu hapart hself⟩, hv'⟩

/-- A run of builds, each of which gives what it would give by itself. -/
theorem builds_give
    (hplain : ∀ k c, ix.classes.find? k = some c → ∀ p, c.parent = some p → Source.Plain p) :
    ∀ (calls : List (LinkContext × String)), (∀ call ∈ calls, RootedOnce call.2) →
      ∀ {b : Builder}, Idle ix b →
    Ensures (Variant ix) ((calls.mapM fun call => build call.1 call.2).run b) fun r =>
      r.1 = (calls.map fun call => built ix call.1 call.2) ∧ Idle ix r.2 := by
  intro calls
  induction calls with
  | nil => intro _ b hb; exact Ensures.pure ⟨rfl, hb⟩
  | cons call calls ih =>
    intro hnames b hb
    obtain ⟨hname, hnames⟩ := List.forall_mem_cons.mp hnames
    rw [List.mapM_cons, StateT.run_bind]
    refine (build_gives hu hapart hself hplain hb call.1 hname).bind fun r hr => ?_
    rw [StateT.run_bind]
    refine (ih hnames hr.2).bind fun rs hrs => ?_
    refine Ensures.pure ⟨?_, hrs.2⟩
    rw [List.map_cons, ← hr.1, ← hrs.1]

end

/-- **A builder gives each class the view that a new one would give it.** -/
theorem build_eq_build_alone (h : Reachable ix) (huses : UsesTraits ix.classes)
    (calls : List (LinkContext × String)) (hnames : ∀ call ∈ calls, RootedOnce call.2) :
    ((calls.mapM fun call => build call.1 call.2).run {} ix).1.1 =
      calls.map fun call => ((build call.1 call.2).run {} ix).1.1 := by
  have hs := sound_reachable h
  have hapart := hs.apart huses
  have hself := hs.memory hapart
  have hplain : ∀ k c, ix.classes.find? k = some c → ∀ p, c.parent = some p → Source.Plain p := by
    intro k c hc p hp
    obtain ⟨parser, path, content, hmem⟩ := hs.declared k c hc
    exact Source.parent_plain hmem hp
  rw [(builds_give hs.unmapped hapart hself hplain calls hnames (idle_new ix) ix hself).1.1]
  refine List.map_congr_left fun call hcall => ?_
  rw [(build_gives hs.unmapped hapart hself hplain (idle_new ix) call.1
    (hnames call hcall) ix hself).1.1]

/-- Two classes that extend each other and one below them, built in turn under two contexts. -/
theorem build_eq_build_alone_cycle :
    let ix := ({} : Index).add "a.php"
      "<?php class A extends B {} class B extends A {} class C extends A {}"
    let calls := [(LinkContext.new "App" "/src" "/", "C"),
      (LinkContext.new "Lib" "/lib" "/", "\\b"), (LinkContext.new "App" "/src" "/", "A"),
      (LinkContext.new "App" "/src/." "/", "c"), (LinkContext.new "App" "/src" "/", "D")]
    let views := ((calls.mapM fun call => build call.1 call.2).run {} ix).1.1
    UsesTraits ix.classes ∧ (∀ call ∈ calls, RootedOnce call.2) ∧
      views = (calls.map fun call => ((build call.1 call.2).run {} ix).1.1) ∧
      views.map (fun view => view.toOption.map ClassView.lineage) =
        [some ["C", "A", "B"], some ["B", "A"], some ["A", "B"], some ["C", "A", "B"], none] := by
  intro ix calls views
  have hreach : Reachable ix := .add _ _ (.new (by intro p hp; simp at hp))
  have huses : UsesTraits ix.classes := by decide +kernel
  have hnames : ∀ call ∈ calls, RootedOnce call.2 := by decide
  have halone : views = calls.map fun call => ((build call.1 call.2).run {} ix).1.1 :=
    build_eq_build_alone hreach huses calls hnames
  refine ⟨huses, hnames, halone, ?_⟩
  rw [halone]
  decide +kernel

end ClassDocs.Builder

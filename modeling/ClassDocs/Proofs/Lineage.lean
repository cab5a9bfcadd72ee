import ClassDocs.Proofs.CollectedIssues
import ClassDocs.Proofs.Distinct
import ClassDocs.Proofs.InheritChain
import ClassDocs.Proofs.LocalLinks

/-!
# The lineage of a view

The view of a class holds the view of its parent, which holds that of the parent above, and so on.
A new builder makes them on its way up, without help from its memory: a view is remembered only
when all those above it are done. `Rises` says how the way up goes from one class, knowing the
names met below: it ends at a class without a known parent, or at one whose parent was met before.
Only the second end is reported as a cycle, and nothing else is, since assembling a view notes
issues of texts and types only (`classView_ofText`).

This is so on every class graph. What flattening makes of a class on a cycle depends on where it
started, but the name and the parent stay those of the declaration.
-/

namespace ClassDocs

/-! ## What assembling a view notes -/

/-- An issue of a text or a type, and not one of the class graph. -/
def Issue.OfText (issue : Issue) : Prop := ∀ className, issue ≠ .inheritanceCycle className

theorem TypeContext.unifyAnnotated_ofText (types : TypeContext) (type : TypeExpr) :
    ∀ issue ∈ (types.unifyAnnotated type).2, issue.OfText := by
  intro issue hissue className
  simp only [unifyAnnotated, Option.mem_toList, Option.map_eq_some_iff] at hissue
  obtain ⟨t, -, rfl⟩ := hissue
  simp

theorem TypeContext.unify_ofText (types : TypeContext) (tag : Option Tag)
    (native : Option TypeExpr) :
    ∀ issue ∈ (types.unify tag native).2, issue.OfText := by
  unfold unify
  split
  · split
    · unfold refineNative
      dsimp only
      split
      · simp
      · exact unifyAnnotated_ofText types _
    · exact unifyAnnotated_ofText types _
  · exact unifyAnnotated_ofText types _
  · simp [Issue.OfText]
  · simp
  · simp

theorem Inherit.resolve_ofText (className : String) (subject : Subject) (comment : Option String)
    (ix : Index) :
    ∀ issue ∈ (resolve className subject comment ix).1.2, issue.OfText := by
  cases comment with
  | none =>
    intro issue hissue
    cases hissue
  | some raw =>
    obtain ⟨_, _, -, -, hissues⟩ := (resolve_settled className subject raw ix).2.exists_last
    rcases hissues with ⟨-, hissues⟩ | ⟨-, name, hissues⟩
    · simp [hissues]
    · simp [hissues, Issue.OfText]

namespace Draft

open Index

variable {α β : Type} {P : Issue → Prop}

/-- From every state, only issues with the property `P` are added to those noted. -/
def Notes (P : Issue → Prop) (m : Draft α) : Prop :=
  ∀ s i, (∀ issue ∈ s, P issue) → ∀ issue ∈ (m.run s i).1.2, P issue

theorem Notes.pure (a : α) : Notes P (pure a : Draft α) := fun _ _ hs => hs

theorem Notes.bind {m : Draft α} {f : α → Draft β} (hm : Notes P m) (hf : ∀ a, Notes P (f a)) :
    Notes P (m >>= f) :=
  fun s i hs => hf _ _ _ (hm s i hs)

theorem Notes.lift (m : Lookup α) : Notes P (liftM m : Draft α) := fun _ _ hs => hs

theorem Notes.note {issues : List Issue} (h : ∀ issue ∈ issues, P issue) :
    Notes P (note issues) := by
  intro s i hs issue hissue
  rcases List.mem_append.mp hissue with hissue | hissue
  · exact hs issue hissue
  · exact h issue hissue

theorem Notes.noting {result : α × List Issue} (h : ∀ issue ∈ result.2, P issue) :
    Notes P (noting result) :=
  (Notes.note h).bind fun _ => Notes.pure _

/-- The result of a lookup is noted. -/
theorem Notes.lift_noting {m : Lookup (α × List Issue)} (h : ∀ i, ∀ issue ∈ (m i).1.2, P issue) :
    Notes P (liftM m >>= Draft.noting : Draft α) :=
  fun s i hs => Notes.noting (h i) s (m i).2 hs

theorem Notes.mapM {f : α → Draft β} (h : ∀ a, Notes P (f a)) (l : List α) :
    Notes P (l.mapM f) := by
  induction l with
  | nil => exact Notes.pure []
  | cons a l ih =>
    rw [List.mapM_cons]
    exact (h a).bind fun b => ih.bind fun bs => Notes.pure (b :: bs)

theorem unify_notes (types : TypeContext) (tag : Option Tag) (native : Option TypeExpr) :
    Notes Issue.OfText (noting (types.unify tag native)) :=
  Notes.noting (types.unify_ofText tag native)

theorem typeList_notes (ctx : LinkContext) (unified : UnifiedType) :
    Notes P (typeList ctx unified) :=
  (Notes.lift _).bind fun _ => Notes.pure _

theorem memberDoc_notes (m : Member) (kind : MemberKind) :
    Notes Issue.OfText (Site.memberDoc Inherit.parseAfresh m kind) :=
  Notes.lift_noting (Inherit.resolve_ofText _ _ _)

theorem constantView_notes (site : Site) (c : Constant) :
    Notes Issue.OfText (constantView Inherit.parseAfresh site c) :=
  (memberDoc_notes _ _).bind fun _ => (unify_notes _ _ _).bind fun _ =>
    (typeList_notes _ _).bind fun _ => Notes.pure _

theorem propertyView_notes (site : Site) (constructorDoc : Option ResolvedDoc) (p : Property) :
    Notes Issue.OfText (propertyView Inherit.parseAfresh site constructorDoc p) :=
  (memberDoc_notes _ _).bind fun _ => (unify_notes _ _ _).bind fun _ =>
    (typeList_notes _ _).bind fun _ => Notes.pure _

theorem parameterView_notes (ctx : LinkContext) (types : TypeContext) (resolved : ResolvedDoc)
    (p : Parameter) :
    Notes Issue.OfText (parameterView ctx types resolved p) :=
  (unify_notes _ _ _).bind fun _ => (typeList_notes _ _).bind fun _ => Notes.pure _

theorem thrownViews_notes (ctx : LinkContext) (types : TypeContext) (tags : List Tag) :
    ∀ seen : List (List String), Notes Issue.OfText (thrownViews ctx types seen tags) := by
  induction tags with
  | nil => intro seen; exact Notes.pure _
  | cons tag tags ih =>
    intro seen
    unfold thrownViews
    split
    · exact ih seen
    · exact (Notes.note (by simp [Issue.OfText])).bind fun _ => ih seen
    · refine (Notes.noting (types.unifyAnnotated_ofText _)).bind fun unified => ?_
      dsimp only
      split
      · exact ih seen
      · exact (Notes.lift _).bind fun _ => (ih _).bind fun _ => Notes.pure _

theorem methodView_notes (site : Site) (m : Method) (resolved : ResolvedDoc) :
    Notes Issue.OfText (methodView site m resolved) := by
  refine (Notes.mapM (parameterView_notes _ _ _) _).bind fun parameters => ?_
  refine (unify_notes _ _ _).bind fun result => ?_
  refine (thrownViews_notes _ _ _ _).bind fun throws => ?_
  exact (typeList_notes _ _).bind fun _ => Notes.pure _

theorem backingViews_notes (site : Site) (backing : Option TypeExpr) :
    Notes Issue.OfText (backingViews site backing) := by
  cases backing with
  | none => exact Notes.pure _
  | some type =>
    exact (unify_notes _ _ _).bind fun _ => (typeList_notes _ _).bind fun _ => Notes.pure _

theorem constructorDoc_notes (m : Option Method) :
    Notes Issue.OfText (constructorDoc Inherit.parseAfresh m) := by
  cases m with
  | none => exact Notes.pure _
  | some m => exact (memberDoc_notes _ _).bind fun _ => Notes.pure _

theorem constructorView_notes (site : Site) (m : Option Method) (resolved : Option ResolvedDoc) :
    Notes Issue.OfText (constructorView site m resolved) := by
  unfold constructorView
  split
  · exact (methodView_notes _ _ _).bind fun _ => Notes.pure _
  · exact Notes.pure _

/-- **Assembling a view notes issues of texts and types only.** -/
theorem classView_ofText (ctx : LinkContext) (c : ClassDecl) (parent : Option ClassView) :
    Notes Issue.OfText (classView ctx c parent) := by
  unfold classView classViewBy
  -- the search for the text and the note of what it met are one step
  rw [← bind_assoc]
  refine (Notes.lift_noting (Inherit.resolve_ofText _ _ _)).bind fun resolved => ?_
  refine (Notes.lift _).bind fun interfaces => (Notes.lift _).bind fun traits => ?_
  refine (backingViews_notes _ _).bind fun backing => ?_
  refine (Notes.mapM (constantView_notes _) _).bind fun constants => ?_
  refine (constructorDoc_notes _).bind fun constructorDoc => ?_
  refine (Notes.mapM (propertyView_notes _ _) _).bind fun properties => ?_
  refine (constructorView_notes _ _ _).bind fun constructor => ?_
  refine Notes.bind (Notes.mapM (fun m => ?_) _) fun methods => ?_
  · exact (memberDoc_notes _ _).bind fun _ => methodView_notes _ _ _
  exact (Notes.lift _).bind fun _ => Notes.pure _

/-- A view has the name of its class and the parent it was given. -/
theorem classView_head (ctx : LinkContext) (c : ClassDecl) (parent : Option ClassView) :
    Gives (classView ctx c parent) fun v => v.name = c.name ∧ v.parent = parent := by
  refine Gives.after fun found => Gives.after fun resolved => Gives.after fun interfaces =>
    Gives.after fun traits =>
    Gives.after fun backing => Gives.after fun constants => Gives.after fun constructorDoc => ?_
  exact Gives.after fun properties => Gives.after fun constructor => Gives.after fun methods =>
    Gives.after fun link => Gives.pure ⟨rfl, rfl⟩

end Draft

theorem ClassView.lineage_eq (v : ClassView) :
    v.lineage = v.name :: (v.parent.map lineage).getD [] := by
  obtain ⟨name, kind, isAbstract, isFinal, link, doc, parent⟩ := v
  cases parent with
  | none => rfl
  | some parent => rfl

/-! ## The way up -/

namespace Builder

open Index Text

variable {classes : Table ClassDecl} {met : List String} {c last : ClassDecl}
  {line : List ClassDecl} {cyclic : Bool}

/--
The way up from a class: the classes on it, the last of them, and whether it ends because the
parent of the last one was met before. `met` has the names of the classes below, in lower case.
-/
inductive Rises (classes : Table ClassDecl) :
    List String → ClassDecl → List ClassDecl → ClassDecl → Bool → Prop where
  | top {met : List String} {c : ClassDecl} :
      (∀ p, c.parent = some p → lower p ∉ lower c.name :: met ∧
        classes.find? (Index.key p) = none) →
      Rises classes met c [c] c false
  | back {met : List String} {c : ClassDecl} {p : String} :
      c.parent = some p → lower p ∈ lower c.name :: met → Rises classes met c [c] c true
  | up {met : List String} {c above last : ClassDecl} {p : String} {line : List ClassDecl}
      {cyclic : Bool} :
      c.parent = some p → lower p ∉ lower c.name :: met →
        classes.find? (Index.key p) = some above →
      lower above.name = lower p → Rises classes (lower c.name :: met) above line last cyclic →
      Rises classes met c (c :: line) last cyclic

/-- The second class is the parent of the first. -/
def HasParent (classes : Table ClassDecl) (c above : ClassDecl) : Prop :=
  ∃ p, c.parent = some p ∧ classes.find? (Index.key p) = some above

theorem Rises.head? (h : Rises classes met c line last cyclic) : line.head? = some c := by
  cases h with
  | top => rfl
  | back => rfl
  | up => rfl

theorem Rises.getLast? (h : Rises classes met c line last cyclic) : line.getLast? = some last := by
  induction h with
  | top => rfl
  | back => rfl
  | up _ _ _ _ hrises ih => rw [List.getLast?_cons, ih, Option.getD_some]

theorem Rises.isChain (h : Rises classes met c line last cyclic) :
    line.IsChain (HasParent classes) := by
  induction h with
  | top => exact List.isChain_singleton _
  | back => exact List.isChain_singleton _
  | up hp _ hfound _ hrises ih =>
    refine List.isChain_cons.mpr ⟨fun d hd => ?_, ih⟩
    rw [hrises.head?] at hd
    obtain rfl := Option.some.inj hd
    exact ⟨_, hp, hfound⟩

/-- No name is repeated on the way, nor is one of those below. -/
theorem Rises.nodup (h : Rises classes met c line last cyclic)
    (hmet : (lower c.name :: met).Nodup) :
    (line.map (fun d => lower d.name) ++ met).Nodup := by
  induction h with
  | top => exact hmet
  | back => exact hmet
  | up _ hnew _ hname _ ih =>
    rw [← hname] at hnew
    exact List.nodup_middle.mp (ih (List.nodup_cons.mpr ⟨hnew, hmet⟩))

/-- The way ends in a cycle exactly if the parent of the last class was met, on the way or
below. -/
theorem Rises.cyclic_iff (h : Rises classes met c line last cyclic) :
    cyclic = true ↔ ∃ p, last.parent = some p ∧
      lower p ∈ line.map (fun d => lower d.name) ++ met := by
  induction h with
  | top htop =>
    refine iff_of_false Bool.false_ne_true ?_
    rintro ⟨p, hp, hmet⟩
    exact (htop p hp).1 hmet
  | back hp hmet => exact iff_of_true rfl ⟨_, hp, hmet⟩
  | up _ _ _ _ _ ih =>
    rw [ih]
    refine exists_congr fun p => and_congr_right fun _ => ?_
    rw [List.mem_append, List.mem_cons, List.map_cons, List.cons_append, List.mem_cons,
      List.mem_append]
    exact or_left_comm

/-- Otherwise the parent of the last class is not known, if it has one. -/
theorem Rises.unknown (h : Rises classes met c line last cyclic)
    (hcyclic : cyclic = false) {p : String} (hp : last.parent = some p) :
    classes.find? (Index.key p) = none := by
  induction h with
  | top htop => exact (htop p hp).2
  | back => cases hcyclic
  | up _ _ _ _ _ ih => exact ih hcyclic hp

theorem Rises.known (h : Rises classes met c line last cyclic) (hf : Filed classes)
    (hc : classes.find? (lower c.name) = some c) :
    ∀ d ∈ line, classes.find? (lower d.name) = some d := by
  induction h with
  | top => exact List.forall_mem_singleton.mpr hc
  | back => exact List.forall_mem_singleton.mpr hc
  | up _ _ hfound _ _ ih =>
    exact List.forall_mem_cons.mpr ⟨hc, ih (key_eq_lower hf hfound ▸ hfound)⟩

theorem Rises.length_le (h : Rises classes [] c line last cyclic) (hf : Filed classes)
    (hc : classes.find? (lower c.name) = some c) : line.length ≤ classes.size := by
  have hnodup := h.nodup (List.nodup_singleton _)
  rw [List.append_nil] at hnodup
  rw [← List.length_map (f := fun d : ClassDecl => lower d.name)]
  refine length_le_size hnodup fun k hmem => ?_
  obtain ⟨d, hd, rfl⟩ := List.mem_map.mp hmem
  exact contains_of_find? (h.known hf hc d hd)

/-- **There is a way up from every known class.** Each step goes to a class that was not met
before, and there are only so many. -/
theorem exists_rises (hf : Filed classes)
    (hplain : ∀ k c, classes.find? k = some c → ∀ p, c.parent = some p → Source.Plain p)
    (room : Nat) :
    ∀ {met : List String} {c : ClassDecl}, classes.size ≤ room + met.length →
      (lower c.name :: met).Nodup →
      (∀ k ∈ met, classes.contains k = true) → classes.find? (lower c.name) = some c →
      ∃ line last cyclic, Rises classes met c line last cyclic := by
  -- the induction is on the number of classes that are left to be met
  induction room with
  | zero =>
    intro met c hroom hnodup hmet hc
    have hsize := length_le_size hnodup (List.forall_mem_cons.mpr ⟨contains_of_find? hc, hmet⟩)
    rw [List.length_cons] at hsize
    omega
  | succ room ih =>
    intro met c hroom hnodup hmet hc
    cases hp : c.parent with
    | none => exact ⟨[c], c, false, .top (by simp [hp])⟩
    | some p =>
      by_cases hback : lower p ∈ lower c.name :: met
      · exact ⟨[c], c, true, .back hp hback⟩
      · cases hfound : classes.find? (Index.key p) with
        | none =>
          refine ⟨[c], c, false, .top fun q hq => ?_⟩
          obtain rfl := Option.some.inj (hp.symm.trans hq)
          exact ⟨hback, hfound⟩
        | some above =>
          have hplace := key_eq_lower hf hfound
          have hname : lower above.name = lower p :=
            hplace.symm.trans (key_of_plain (hplain _ c hc p hp)).2
          obtain ⟨line, last, cyclic, hrises⟩ := ih (by rw [List.length_cons]; omega)
            (List.nodup_cons.mpr ⟨hname ▸ hback, hnodup⟩)
            (List.forall_mem_cons.mpr ⟨contains_of_find? hc, hmet⟩) (hplace ▸ hfound)
          exact ⟨c :: line, last, cyclic, .up hp hback hfound hname hrises⟩

/-! ## The builder on its way -/

variable {ix : Index} {ctx : LinkContext}

/-- What is found by a name is the declaration of the class but for its members, on every class
graph. -/
theorem describe?_heads (hk : Kept ix) (name : String) :
    Ensures (Traced ix) (describe? name)
      (Option.Rel Headed (ix.classes.find? (Index.key name))) := by
  intro i hi
  refine ⟨?_, (describe?_traced hk.unmapped hk.filed name i hi).2⟩
  have hki := hi.kept hk
  rw [← hi.table.classes]
  cases hc : i.classes.find? (Index.key name) with
  | none =>
    have hunknown : (describe? name i).1 = none := by
      rw [← Option.not_isSome_iff_eq_none,
        (describe?_finds hki.unmapped name i hki.traced.table).1]
      simp [Table.contains, hc]
    rw [hunknown]
    exact .none
  | some c =>
    obtain ⟨m, hm, hheaded⟩ := describe?_headed hki hc
    rw [hm]
    exact .some hheaded

/-- A view that is drawn continues the lineage of the parent, and its issues are none of the class
graph. -/
theorem classView_draws (hk : Kept ix) (ctx : LinkContext) (c : ClassDecl)
    (parent : Option ClassView) :
    Ensures (Traced ix) ((Draft.classView ctx c parent).run []) fun r =>
      r.1.lineage = c.name :: (parent.map ClassView.lineage).getD [] ∧
        ∀ issue ∈ r.2, issue.OfText := by
  have hcoherent := coherent_of_ensures fun name i hi =>
    ⟨trivial, (describe?_traced hk.unmapped hk.filed name i hi).2⟩
  intro i hi
  refine ⟨⟨?_, Draft.classView_ofText ctx c parent [] i (by simp)⟩,
    ((Draft.classView_agree hcoherent (LinkContext.same_refl ctx) c parent []).ensures i hi).2⟩
  obtain ⟨hname, hparent⟩ := Draft.classView_head ctx c parent [] i
  rw [ClassView.lineage_eq, hname, hparent]

/-- The view of a class with this lineage is made, and among the issues of cycles only `more` is
new. -/
structure Raised (lineage : List String) (cyclic : Bool) (b : Builder) (more : String → Prop)
    (r : (Option ClassView × Bool) × Builder) : Prop where
  view : ∃ v, r.1 = (some v, cyclic) ∧ v.lineage = lineage
  cycles : ∀ n, .inheritanceCycle n ∈ r.2.issues ↔ .inheritanceCycle n ∈ b.issues ∨ more n

/-- At the end of a build no cycle is reported. -/
theorem finish_raises (hk : Kept ix) (k : String) (c : ClassDecl) (parent : Option ClassView)
    (cyclic : Bool) {b b' : Builder} {more : String → Prop}
    (hb : ∀ n, .inheritanceCycle n ∈ b.issues ↔ .inheritanceCycle n ∈ b'.issues ∨ more n) :
    Ensures (Traced ix) ((finish ctx k c (parent, cyclic)).run b)
      (Raised (c.name :: (parent.map ClassView.lineage).getD []) cyclic b' more) := by
  refine ensures_lift_bind (classView_draws hk ctx c parent) fun drawn hdrawn => ?_
  have hcycles : ∀ n, .inheritanceCycle n ∈ addIssues b.issues drawn.2 ↔
      .inheritanceCycle n ∈ b'.issues ∨ more n := by
    intro n
    rw [mem_addIssues, ← hb n, or_iff_left fun hissue => hdrawn.2 _ hissue n rfl]
  cases cyclic with
  | true => exact Ensures.pure ⟨⟨drawn.1, rfl, hdrawn.1⟩, hcycles⟩
  | false => exact Ensures.pure ⟨⟨drawn.1, rfl, hdrawn.1⟩, hcycles⟩

/-- A class that is not known is not built, and nothing changes. -/
theorem buildView_unknown (hk : Kept ix) {name : String}
    (hname : ix.classes.find? (Index.key name) = none) {b : Builder} (hb : b.views = {})
    (bound : Nat) (underway : List String) :
    Ensures (Traced ix) ((buildView ctx bound underway name).run b) (· = ((none, false), b)) := by
  cases bound with
  | zero => exact Ensures.pure rfl
  | succ bound =>
    rw [buildView, StateT.run_bind, StateT.run_get, pure_bind]
    simp only [hb, Table.find?_empty]
    refine ensures_lift_bind (describe?_heads hk name) fun found hfound => ?_
    rw [hname] at hfound
    cases hfound
    exact Ensures.pure rfl

/-- A known class is built after its parent. -/
theorem buildView_known (hk : Kept ix) {name : String}
    (hname : ix.classes.find? (Index.key name) = some c) {b : Builder} (hb : b.views = {})
    {bound : Nat} (hbound : 0 < bound) {underway : List String}
    {R : (Option ClassView × Bool) × Builder → Prop}
    (h : ∀ m, Headed c m → Ensures (Traced ix)
      ((buildParent (buildView ctx (bound - 1) (key name :: underway)) (key name :: underway) m >>=
        finish ctx (key name) m).run b) R) :
    Ensures (Traced ix) ((buildView ctx bound underway name).run b) R := by
  obtain ⟨bound, rfl⟩ := Nat.exists_eq_add_one.mpr hbound
  rw [buildView, StateT.run_bind, StateT.run_get, pure_bind]
  simp only [hb, Table.find?_empty]
  refine ensures_lift_bind (describe?_heads hk name) fun found hfound => ?_
  rw [hname] at hfound
  cases hfound with
  | some hheaded => exact h _ hheaded

/-- **A new builder follows the way up**, and reports a cycle where the way ends in one. -/
theorem buildView_raises (hk : Kept ix)
    (hplain : ∀ k c, ix.classes.find? k = some c → ∀ p, c.parent = some p → Source.Plain p)
    (h : Rises ix.classes met c line last cyclic) :
    ∀ {name : String} {bound : Nat} {b : Builder}, ix.classes.find? (Index.key name) = some c →
      key name = lower c.name → line.length ≤ bound → b.views = {} →
      Ensures (Traced ix) ((buildView ctx bound met name).run b)
        (Raised (line.map (·.name)) cyclic b fun n => cyclic = true ∧ n = last.name) := by
  induction h with
  | @top met c htop =>
    intro name bound b hname hkey hbound hb
    refine buildView_known hk hname hb (Nat.zero_lt_of_lt hbound) fun m hm => ?_
    have hend : Ensures (Traced ix) ((finish ctx (key name) m (none, false)).run b)
        (Raised [c.name] false b fun n => false = true ∧ n = c.name) := by
      rw [← hm.name]
      exact finish_raises hk _ m none false (by simp)
    cases hp : c.parent with
    | none =>
      rw [buildParent_of_none (hm.parent.trans hp), pure_bind]
      exact hend
    | some p =>
      obtain ⟨hnew, hunknown⟩ := htop p hp
      rw [buildParent_of_new (hm.parent.trans hp) (hkey ▸ hnew), StateT.run_bind]
      refine (buildView_unknown hk hunknown hb _ _).bind ?_
      rintro _ rfl
      exact hend
  | @back met c p hp hmet =>
    intro name bound b hname hkey hbound hb
    refine buildView_known hk hname hb (Nat.zero_lt_of_lt hbound) fun m hm => ?_
    rw [buildParent_of_met (hm.parent.trans hp) (hkey ▸ hmet), List.map_singleton, ← hm.name]
    refine finish_raises hk (key name) m none true fun n => ?_
    rw [mem_addIssues, List.mem_singleton, Issue.inheritanceCycle.injEq]
    simp
  | @up met c above last p line cyclic hp hnew hfound habove hrises ih =>
    intro name bound b hname hkey hbound hb
    refine buildView_known hk hname hb (Nat.zero_lt_of_lt hbound) fun m hm => ?_
    -- the builder makes the key of the parent from its name, in front of which no backslash stands
    have hlower : key p = lower above.name :=
      (key_of_plain (hplain _ c hname p hp)).1.trans habove.symm
    rw [buildParent_of_new (hm.parent.trans hp) (hkey ▸ hnew), StateT.run_bind, hkey]
    refine (ih hfound hlower (Nat.le_pred_of_lt hbound) hb).bind fun r hr => ?_
    obtain ⟨⟨found, cyclic'⟩, b'⟩ := r
    obtain ⟨v, hv, hlineage⟩ := hr.view
    obtain ⟨rfl, rfl⟩ := Prod.mk.inj hv
    rw [List.map_cons, ← hlineage, ← hm.name]
    exact finish_raises hk _ m (some v) cyclic' hr.cycles

/-! ## Every index -/

/-- The chain of the parents of a class, up to the last one before an unknown or a repeated
name. -/
structure Lineage (classes : Table ClassDecl) (c : ClassDecl) (line : List ClassDecl)
    (highest : ClassDecl) :
    Prop where
  first : line.head? = some c
  last : line.getLast? = some highest
  parents : line.IsChain (HasParent classes)
  /-- No two names are the same up to letter case. -/
  distinct : line.Pairwise fun d e => sameName d.name e.name = false
  /-- If the last class has a parent, that one is not known or its name is there already. -/
  stops : ∀ p, highest.parent = some p →
    classes.find? (Index.key p) = none ∨ ∃ d ∈ line, sameName d.name p = true

theorem Rises.repeats_iff (h : Rises classes [] c line last cyclic) :
    cyclic = true ↔ ∃ p, last.parent = some p ∧ ∃ d ∈ line, sameName d.name p = true := by
  rw [h.cyclic_iff]
  simp [sameName]

theorem Rises.lineage (h : Rises classes [] c line last cyclic) : Lineage classes c line last where
  first := h.head?
  last := h.getLast?
  parents := h.isChain
  distinct := by
    have hnodup := h.nodup (List.nodup_singleton _)
    rw [List.append_nil, List.Nodup, List.pairwise_map] at hnodup
    exact hnodup.imp fun hne => by simpa [sameName] using hne
  stops := by
    intro p hp
    cases hcyclic : cyclic with
    | false => exact .inl (h.unknown hcyclic hp)
    | true =>
      obtain ⟨q, hq, hmet⟩ := h.repeats_iff.mp hcyclic
      obtain rfl := Option.some.inj (hp.symm.trans hq)
      exact .inr hmet

variable {project : Option Project}

/--
A new builder gives a known class the chain of its parents as lineage. It reports a cycle exactly
if the chain stops because of a repeated name, and then at the last class of the chain.
-/
theorem buildOnce_lineage (hu : Unmapped { project }) (h : Reached project ix) {name : String}
    {c : ClassDecl} (hown : (own name ix).1 = some c) (ctx : LinkContext) :
    ∃ view issues line highest, (buildOnce ctx name ix).1 = .ok (view, issues) ∧
      view.lineage = line.map (·.name) ∧ Lineage ix.classes c line highest ∧
        line.length ≤ ix.classes.size ∧
      ∀ n, .inheritanceCycle n ∈ issues ↔
        n = highest.name ∧ ∃ p, highest.parent = some p ∧
          ∃ d ∈ line, sameName d.name p = true := by
  have hk := kept_reached hu h
  have hplain := parent_plain_of_sound (sound_reached hu h)
  have hname : ix.classes.find? (Index.key name) = some c := by
    rwa [own_of_unmapped hk.unmapped] at hown
  have hplace := key_eq_lower hk.filed hname
  have hc : ix.classes.find? (lower c.name) = some c := hplace ▸ hname
  have hkey : key name = lower c.name := (key_eq_of_known hk.filed hname).trans hplace
  obtain ⟨line, last, cyclic, hrises⟩ : ∃ line last cyclic,
      Rises ix.classes [] c line last cyclic :=
    exists_rises hk.filed hplain ix.classes.size (Nat.le_refl _) (List.nodup_singleton _)
      (List.forall_mem_nil _) hc
  have hlength := hrises.length_le hk.filed hc
  have hbound : line.length ≤ 2 * ix.bound := by
    unfold Index.bound
    omega
  have hraised : Raised (line.map (·.name)) cyclic { context := some ctx }
    (fun n => cyclic = true ∧ n = last.name)
      ((buildView ctx (2 * ix.bound) [] name).run { context := some ctx } ix).1 :=
    (buildView_raises hk hplain hrises hname hkey hbound rfl ix hk.traced).1
  rw [buildOnce_apply]
  generalize ((buildView ctx (2 * ix.bound) [] name).run { context := some ctx } ix).1 =
    r at hraised ⊢
  obtain ⟨view, hview, hlineage⟩ := hraised.view
  refine ⟨view, r.2.issues, line, last,
    by rw [hview]; rfl, hlineage, hrises.lineage, hlength, fun n => ?_⟩
  rw [hraised.cycles, ← hrises.repeats_iff, and_comm]
  exact or_iff_right List.not_mem_nil

/-- A class below a cycle that does not lead back to it, by names in several letter cases. -/
theorem buildOnce_lineage_cycle :
    let ix := ({} : Index).add "a.php"
      "<?php class A extends b {} class B extends C {} class C extends \\B {}"
    let ctx := LinkContext.new "App" "/src" "/"
    ((buildOnce ctx "\\a" ix).1.toOption.map fun r => (r.1.lineage, r.2)) =
        some (["A", "B", "C"], [.inheritanceCycle "C"]) ∧
      ∃ c, (own "\\a" ix).1 = some c ∧ c.name = "A" ∧
        ∃ view issues line highest, (buildOnce ctx "\\a" ix).1 = .ok (view, issues) ∧
          view.lineage = line.map (·.name) ∧ Lineage ix.classes c line highest ∧
            line.length ≤ ix.classes.size ∧
          ∀ n, .inheritanceCycle n ∈ issues ↔
            n = highest.name ∧ ∃ p, highest.parent = some p ∧
                ∃ d ∈ line, sameName d.name p = true := by
  intro ix ctx
  have hfound : (own "\\a" ix).1.map (·.name) = some "A" := by decide +kernel
  obtain ⟨c, hown, hname⟩ := Option.map_eq_some_iff.mp hfound
  exact ⟨by decide +kernel, c, hown, hname,
    buildOnce_lineage (by intro p hp; simp at hp) (.add _ _ .new) hown ctx⟩

end Builder

end ClassDocs

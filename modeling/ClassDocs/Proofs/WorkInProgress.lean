import ClassDocs.Builder.Workbench
import ClassDocs.Proofs.ParsedOnce

/-!
# The state of a builder at work

The bench keeps the classes being built, the flag of a cycle and the parsed comments in its state.
Building on the bench gives the views, the issues and the remembered views that `Builder.buildView`
gives with the classes being built as an argument and the flag as a result (`buildView_refines`):
while a view is being built the flag says whether a cycle was met since the class was noted, and
afterwards nothing is in progress that was not before. So with nothing in progress every build is a
build by the plain builder (`build_refines`), and so is every sequence of builds
(`mapM_build_refines`); a flag that stays up from an earlier build does no harm.
-/

namespace ClassDocs

variable {α β γ δ σ : Type}

/-- From one index two lookups give answers related by `Q` and leave the same index. -/
def Relates (Q : α → β → Prop) (x : Lookup α) (y : Lookup β) : Prop :=
  ∀ ix, Q (x ix).1 (y ix).1 ∧ (x ix).2 = (y ix).2

theorem Relates.pure {Q : α → β → Prop} {a : α} {b : β} (h : Q a b) :
    Relates Q (pure a) (pure b) :=
  fun _ => ⟨h, rfl⟩

theorem Relates.bind {Q : α → β → Prop} {R : γ → δ → Prop} {x : Lookup α} {y : Lookup β}
    {f : α → Lookup γ} {g : β → Lookup δ} (h : Relates Q x y)
    (hnext : ∀ a b, Q a b → Relates R (f a) (g b)) :
    Relates R (x >>= f) (y >>= g) := by
  intro ix
  obtain ⟨hQ, hix⟩ := h ix
  show R (f (x ix).1 (x ix).2).1 (g (y ix).1 (y ix).2).1 ∧
      (f (x ix).1 (x ix).2).2 = (g (y ix).1 (y ix).2).2
  rw [← hix]
  exact hnext _ _ hQ (x ix).2

/-- Both ask the index the same. -/
theorem Relates.ask {τ : Type} {R : γ × σ → δ × τ → Prop} (x : Lookup α)
    {f : α → StateT σ Lookup γ} {g : α → StateT τ Lookup δ} {s : σ} {t : τ}
    (hnext : ∀ a, Relates R ((f a).run s) ((g a).run t)) :
    Relates R ((liftM x >>= f).run s) ((liftM x >>= g).run t) :=
  fun ix => hnext (x ix).1 (x ix).2

theorem Mirrors.relates {x : Caching α} {y : Lookup α} (h : Mirrors x y) (cache : ParseCache) :
    Relates (fun r a => r.1 = a) (x.run cache) y := by
  rw [← h cache]
  exact fun _ => ⟨rfl, rfl⟩

namespace Workbench

open Builder (key)

/-- The classes in progress are those under way. -/
def Shows (w : Workbench) (underway : List String) : Prop := ∀ k, k ∈ w.inProgress ↔ k ∈ underway

/-- The bench comes from `w` to what the builder comes to. -/
structure Matches (w : Workbench) (r : Option ClassView × Workbench)
    (r' : (Option ClassView × Bool) × Builder) :
    Prop where
  view : r.1 = r'.1.1
  builder : r.2.toBuilder = r'.2
  flag : r.2.cycleHit = (r'.1.2 || w.cycleHit)
  inProgress : r.2.inProgress ⊆ w.inProgress

theorem matches_rest (w : Workbench) (view : Option ClassView) :
    Matches w (view, w) ((view, false), w.toBuilder) := ⟨rfl, rfl, rfl, fun _ hk => hk⟩

theorem Shows.insert {w : Workbench} {underway : List String} (h : w.Shows underway) (k : String)
    (hit : Bool) :
    Shows { w with inProgress := w.inProgress.insert k, cycleHit := hit } (k :: underway) := by
  intro k'
  rw [List.mem_insert_iff, List.mem_cons, h k']

theorem buildParent_refines {build : String → Work (Option ClassView)}
    {build' : String → Build (Option ClassView × Bool)} {underway : List String} {w : Workbench}
    (hbuild : ∀ name, Relates (Matches w) ((build name).run w) ((build' name).run w.toBuilder))
    (hw : w.Shows underway) (c : ClassDecl) :
    Relates (Matches w) ((buildParent build c).run w)
      ((Builder.buildParent build' underway c).run w.toBuilder) := by
  unfold buildParent Builder.buildParent
  cases c.parent with
  | none => exact Relates.pure (matches_rest w none)
  | some parent =>
    have hmet : w.inProgress.contains (Text.lower parent) =
        underway.contains (Text.lower parent) := by
      rw [Bool.eq_iff_iff, List.contains_iff_mem, List.contains_iff_mem, hw]
    dsimp only
    rw [StateT.run_bind, StateT.run_get, pure_bind, hmet]
    split
    · exact Relates.pure ⟨rfl, rfl, rfl, fun _ hk => hk⟩
    · exact hbuild parent

theorem run_enter_bind (w : Workbench) (k : String) (next : Bool → Work α) :
    (enter k >>= next).run w =
      (next w.cycleHit).run { w with inProgress := w.inProgress.insert k, cycleHit := false } :=
  rfl

/-- A class is left as it was entered, but for what its parent has done. -/
theorem leave_run (w : Workbench) (k : String) (outer : Bool) (view : ClassView)
    (issues : List Issue) :
    (leave k outer view issues).run w = pure ((), { w with
      inProgress := w.inProgress.filter (· != k)
      issues := Builder.addIssues w.issues issues
      views := if w.cycleHit then w.views else w.views.insert k view
      cycleHit := w.cycleHit || outer }) := by
  rcases w with ⟨builder, parsed, inProgress, _ | _⟩
  · rfl
  · rfl

/-- Work of the builder is done on both sides. -/
theorem onBuilder_relates {R : γ × Workbench → δ × Builder → Prop} (x : Build α) {f : α → Work γ}
    {g : α → Build δ} {w : Workbench}
    (hnext : ∀ a b, Relates R ((f a).run { w with toBuilder := b }) ((g a).run b)) :
    Relates R ((onBuilder x >>= f).run w) ((x >>= g).run w.toBuilder) :=
  fun ix => hnext (x.run w.toBuilder ix).1.1 (x.run w.toBuilder ix).1.2 (x.run w.toBuilder ix).2

/-- What is read through the cache on one side is looked up on the other. -/
theorem onCache_relates {R : γ × Workbench → δ × Builder → Prop} {x : Caching α} {y : Lookup α}
    (h : Mirrors x y) {f : α → Work γ} {g : α → Build δ} {w : Workbench} {b : Builder}
    (hnext : ∀ a parsed, Relates R ((f a).run { w with parsed }) ((g a).run b)) :
    Relates R ((onCache x >>= f).run w) ((liftM y >>= g).run b) := by
  intro ix
  obtain ⟨hanswer, hindex⟩ := h.relates w.parsed ix
  have hrest := hnext (y ix).1 (x.run w.parsed ix).1.2 (y ix).2
  rw [← hanswer, ← hindex] at hrest
  rw [← h w.parsed]
  exact hrest

/-- **Building on the bench gives what the builder gives**, with the classes in progress as those
under way. -/
theorem buildView_refines (ctx : LinkContext) (bound : Nat) :
    ∀ (underway : List String) (name : String) (w : Workbench), w.Shows underway →
      Relates (Matches w) ((buildView ctx bound name).run w)
        ((Builder.buildView ctx bound underway name).run w.toBuilder) := by
  induction bound with
  | zero => intro underway name w _; exact Relates.pure (matches_rest w none)
  | succ bound ih =>
    intro underway name w hw
    rw [buildView, Builder.buildView, StateT.run_bind, StateT.run_bind, StateT.run_get,
      StateT.run_get, pure_bind, pure_bind]
    cases hmemo : w.views.find? (key name) with
    | some view => exact Relates.pure (matches_rest w (some view))
    | none =>
      refine Relates.ask _ fun found => ?_
      cases found with
      | none => exact Relates.pure (matches_rest w none)
      | some c =>
        -- the class is in progress and the flag is down while the parent is built
        have hentered := hw.insert (key name) false
        dsimp only
        rw [run_enter_bind, StateT.run_bind, StateT.run_bind]
        refine (buildParent_refines (fun parent => ih _ parent _ hentered) hentered c).bind ?_
        rintro ⟨parent, w₂⟩ ⟨⟨_, cyclic⟩, _⟩ ⟨rfl, rfl, hflag, hprogress⟩
        dsimp only at hflag hprogress ⊢
        refine onCache_relates (Draft.classViewBy_mirrors ctx c parent []) fun drawn parsed => ?_
        obtain ⟨view, issues⟩ := drawn
        dsimp only
        rw [StateT.run_bind, leave_run, pure_bind]
        have hstruck : w₂.inProgress.filter (· != key name) ⊆ w.inProgress := by
          intro k hk
          obtain ⟨hk, hne⟩ := List.mem_filter.mp hk
          rcases List.mem_insert_iff.mp (hprogress hk) with heq | hold
          · exact absurd heq (by simpa using hne)
          · exact hold
        rw [Bool.or_false] at hflag
        simp only [hflag]
        cases cyclic with
        | false => exact Relates.pure ⟨rfl, rfl, rfl, hstruck⟩
        | true => exact Relates.pure ⟨rfl, rfl, rfl, hstruck⟩

/-- The bench comes to what the builder comes to, with nothing in progress. -/
structure Settles (r : α × Workbench) (r' : α × Builder) : Prop where
  answer : r.1 = r'.1
  builder : r.2.toBuilder = r'.2
  inProgress : r.2.inProgress = []

/-- **With nothing in progress a build on the bench is a build by its builder**, whatever the flag
says and whichever comments were parsed before. -/
theorem build_refines (ctx : LinkContext) (name : String) {w : Workbench}
    (hw : w.inProgress = []) :
    Relates Settles ((build ctx name).run w) ((Builder.build ctx name).run w.toBuilder) := by
  refine onBuilder_relates _ fun _ b => Relates.ask _ fun ix => ?_
  have hshows : Shows { w with toBuilder := b } [] := fun k => by rw [hw]
  rw [StateT.run_bind, StateT.run_bind]
  refine (buildView_refines ctx _ [] name _ hshows).bind ?_
  rintro ⟨view, w'⟩ ⟨⟨_, cyclic⟩, _⟩ ⟨rfl, rfl, -, hprogress⟩
  have hrest : w'.inProgress = [] := List.subset_nil.mp (hw ▸ hprogress)
  cases view with
  | some view => exact Relates.pure ⟨rfl, rfl, hrest⟩
  | none => exact Relates.pure ⟨rfl, rfl, hrest⟩

/-- **So is every sequence of builds.** -/
theorem mapM_build_refines (requests : List (LinkContext × String)) :
    ∀ {w : Workbench}, w.inProgress = [] →
      Relates Settles ((requests.mapM fun q => build q.1 q.2).run w)
        ((requests.mapM fun q => Builder.build q.1 q.2).run w.toBuilder) := by
  induction requests with
  | nil => intro w hw; exact Relates.pure ⟨rfl, rfl, hw⟩
  | cons q requests ih =>
    intro w hw
    rw [List.mapM_cons, List.mapM_cons, StateT.run_bind, StateT.run_bind]
    refine (build_refines q.1 q.2 hw).bind ?_
    rintro ⟨answer, w₁⟩ ⟨_, _⟩ ⟨rfl, rfl, hw₁⟩
    rw [StateT.run_bind, StateT.run_bind]
    refine (ih hw₁).bind ?_
    rintro ⟨answers, w₂⟩ ⟨_, _⟩ ⟨rfl, rfl, hw₂⟩
    exact Relates.pure ⟨rfl, rfl, hw₂⟩

end Workbench

end ClassDocs

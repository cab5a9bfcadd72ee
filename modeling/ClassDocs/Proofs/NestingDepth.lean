import ClassDocs.Proofs.BatchComplete

/-!
# How deep a walk goes

The class graph may have cycles anywhere, among parents, interfaces and traits, and nothing gets
smaller from a class to the ones it names. A walk ends all the same. The classes being flattened
are on a stack, each of them once, so the way up is no longer than the number of classes; and
traits of traits are followed to a fixed depth only.

To say that a walk ends, it has to be able not to. `walkWithin` is the walk of `flatten` with a
bound on how many calls may be inside each other, one for the way up and one for the traits, and it
has no result at all if a bound is reached. Both walks are made of the same step (`enter`), so they
differ in nothing but the bounds. What the bounded walk comes to is the result of `flatten`, for
all bounds above the number of classes and the depth of traits.
-/

namespace ClassDocs.Index

variable {α β σ : Type}

/-- A walk that may be given up. It has no result then. -/
abbrev Walk := StateT Index Option

section

variable {m : Type → Type} [Monad m]

/-- A lookup on the way of a walk. -/
def ask (q : Lookup α) : StateT Index m α := fun i => pure (q i)

/-- A class with one more trait. `nested` goes on with the traits of the trait. -/
def takeTrait
    (nested : List String → Option String → List String → ClassDecl → StateT Index m ClassDecl)
    (stack : List String) (via : Option String) (c : ClassDecl) (name : String) :
    StateT Index m ClassDecl := do
  match ← ask (own name) with
  | none => return c
  | some trait =>
    if stack.contains (key name) then return c
    else
      let via := via.getD trait.name
      nested (key name :: stack) (some via) trait.traits (c.addTrait trait via)

/-- A class with one more ancestor, which `up` flattens. -/
def takeAncestor (up : String → StateT Index m (Option ClassDecl × Bool))
    (sofar : ClassDecl × Bool) (ancestor : String × Bool) : StateT Index m (ClassDecl × Bool) := do
  let (found, cyclic) ← up ancestor.1
  let merged := match found with
    | some a => sofar.1.inherit a ancestor.2
    | none => sofar.1
  return (merged, sofar.2 || cyclic)

/-- The step of a walk up. `merge` adds the traits of the class, and `up` goes on to its
ancestors. -/
def enter (merge : List String → List String → ClassDecl → StateT Index m ClassDecl)
    (up : List String → String → StateT Index m (Option ClassDecl × Bool)) (stack : List String)
    (name : String) :
    StateT Index m (Option ClassDecl × Bool) := do
  match (← get).flattened.find? (key name) with
  | some c => return (some c, false)
  | none =>
    match ← ask (own name) with
    | none => return (none, false)
    | some c =>
      if stack.contains (key name) then return (some c, true)
      else
        let stack := key name :: stack
        let merged ← merge stack c.traits c
        let (merged, cyclic) ← c.ancestors.foldlM (takeAncestor (up stack)) (merged, false)
        if !cyclic then
          modify fun ix => { ix with flattened := ix.flattened.insert (key name) merged }
        return (some merged, cyclic)

end

theorem addTraits_succ (depth : Nat) (stack : List String) (via : Option String)
    (names : List String) (c : ClassDecl) :
    addTraits (depth + 1) stack via names c =
      names.foldlM (takeTrait (m := Id) (addTraits depth) stack via) c := rfl

theorem flatten_succ (bound : Nat) (stack : List String) (name : String) :
    flatten (bound + 1) stack name =
      enter (m := Id) (fun stack => addTraits traitDepth stack none) (flatten bound) stack name :=
  rfl

/-- The members of traits and of their traits, with at most `calls` calls inside each other.
`depth` is how far the traits are from the class. -/
def mergeWithin :
    Nat → Nat → List String → Option String → List String → ClassDecl → Walk ClassDecl
  | 0, _, _, _, _, _ => failure
  | calls + 1, depth, stack, via, names, c =>
    if traitDepth ≤ depth then return c
    else names.foldlM (takeTrait (mergeWithin calls (depth + 1)) stack via) c

/-- The walk up with at most `calls` calls inside each other, each with at most `traitCalls` for
its traits. -/
def walkWithin (traitCalls : Nat) : Nat → List String → String → Walk (Option ClassDecl × Bool)
  | 0, _, _ => failure
  | calls + 1, stack, name =>
    enter (fun stack => mergeWithin traitCalls 0 stack none)
      (walkWithin traitCalls calls) stack name

/-! ## Walks that come to the result of a lookup -/

variable {V : Index → Prop} {Q : α → Prop}

/-- From every state in `V` the walk has a result, and it is that of the lookup. -/
def Completes (V : Index → Prop) (w : Walk α) (q : Lookup α) : Prop := ∀ i, V i → w i = some (q i)

theorem Completes.pure (a : α) : Completes V (pure a) (pure a) := fun _ _ => rfl

theorem Completes.bind {w : Walk α} {q : Lookup α} {f : α → Walk β} {g : α → Lookup β}
    (hw : Completes V w q) (hq : Ensures V q Q) (hf : ∀ a, Q a → Completes V (f a) (g a)) :
    Completes V (w >>= f) (q >>= g) := by
  intro i hi
  obtain ⟨ha, hi'⟩ := hq i hi
  show (w i).bind (fun r => f r.1 r.2) = _
  rw [hw i hi]
  exact hf _ ha _ hi'

/-- A walk that starts by looking at the state. -/
theorem Completes.get {f : Index → Walk α} {g : Index → Lookup α}
    (h : ∀ i, V i → f i i = some (g i i)) :
    Completes V (get >>= f) (get >>= g) := h

theorem completes_ask (q : Lookup α) : Completes V (ask q) q := fun _ _ => rfl

theorem Completes.foldlM {f : σ → α → Walk σ} {g : σ → α → Lookup σ}
    (hg : ∀ s a, Ensures V (g s a) fun _ => True) :
    ∀ (l : List α), (∀ s, ∀ a ∈ l, Completes V (f s a) (g s a)) →
      ∀ s, Completes V (l.foldlM f s) (l.foldlM g s) := by
  intro l
  induction l with
  | nil => intro _ s; exact .pure s
  | cons a l ih =>
    intro h s
    rw [List.foldlM_cons, List.foldlM_cons]
    refine (h s a List.mem_cons_self).bind (hg s a) fun s' _ => ?_
    exact ih (fun s a ha => h s a (List.mem_cons_of_mem _ ha)) s'

/-! ## Traits -/

theorem takeTrait_steady (hV : Steady V)
    {nested : List String → Option String → List String → ClassDecl → Lookup ClassDecl}
    (h : ∀ stack via names c, Ensures V (nested stack via names c) fun _ => True)
    (stack : List String) (via : Option String) (c : ClassDecl) (name : String) :
    Ensures V (takeTrait (m := Id) nested stack via c name) fun _ => True := by
  refine (hV.own name).bind fun found _ => ?_
  cases found with
  | none => exact Ensures.pure trivial
  | some trait =>
    dsimp only
    split
    · exact Ensures.pure trivial
    · exact h _ _ _ _

theorem Completes.takeTrait (hV : Steady V)
    {nested : List String → Option String → List String → ClassDecl → Walk ClassDecl}
    {nested' : List String → Option String → List String → ClassDecl → Lookup ClassDecl}
    (h : ∀ stack via names c, Completes V (nested stack via names c) (nested' stack via names c))
    (stack : List String) (via : Option String) (c : ClassDecl) (name : String) :
    Completes V (Index.takeTrait nested stack via c name)
      (Index.takeTrait (m := Id) nested' stack via c name) := by
  refine (completes_ask (own name)).bind (hV.own name) fun found _ => ?_
  cases found with
  | none => exact .pure c
  | some trait =>
    dsimp only
    split
    · exact .pure c
    · exact h _ _ _ _

/-- A trait that is as far away as traits are followed is the last one to make a call. -/
theorem mergeWithin_completes (hV : Steady V) (calls : Nat) : ∀ (depth : Nat), depth ≤ traitDepth →
    traitDepth < calls + depth →
      ∀ (stack : List String) (via : Option String) (names : List String) (c : ClassDecl),
      Completes V (mergeWithin calls depth stack via names c)
        (addTraits (traitDepth - depth) stack via names c) := by
  induction calls with
  | zero =>
    intro depth hle hlt
    omega
  | succ calls ih =>
    intro depth hle hlt stack via names c
    rw [mergeWithin]
    split
    · rename_i hend
      rw [Nat.sub_eq_zero_of_le hend]
      exact .pure c
    · rename_i hend
      obtain ⟨left, hleft⟩ : ∃ left, traitDepth - depth = left + 1 :=
        ⟨traitDepth - depth - 1, by omega⟩
      have hnested := ih (depth + 1) (by omega) (by omega)
      rw [show traitDepth - (depth + 1) = left by omega] at hnested
      rw [hleft, addTraits_succ]
      exact Completes.foldlM (takeTrait_steady hV (addTraits_steady hV left) stack via) names
        (fun c name _ => .takeTrait hV hnested stack via c name) c

/-! ## The way up -/

theorem takeAncestor_steady {up : String → Lookup (Option ClassDecl × Bool)}
    (h : ∀ name, Ensures V (up name) fun _ => True) (sofar : ClassDecl × Bool)
    (a : String × Bool) :
    Ensures V (takeAncestor (m := Id) up sofar a) fun _ => True :=
  (h a.1).bind fun _ _ => Ensures.pure trivial

theorem Completes.takeAncestor {up : String → Walk (Option ClassDecl × Bool)}
    {up' : String → Lookup (Option ClassDecl × Bool)}
    (hup' : ∀ name, Ensures V (up' name) fun _ => True) {a : String × Bool}
    (h : Completes V (up a.1) (up' a.1)) (sofar : ClassDecl × Bool) :
    Completes V (Index.takeAncestor up sofar a) (Index.takeAncestor (m := Id) up' sofar a) :=
  h.bind (hup' a.1) fun _ _ => .pure _

/-- The states of an index while its table stays as it is. -/
def Unchanged (ix i : Index) : Prop := Unmapped i ∧ i.classes = ix.classes

theorem own_unchanged (ix : Index) (name : String) :
    Ensures (Unchanged ix) (own name) (· = ix.classes.find? (key name)) := by
  intro i hi
  rw [own_of_unmapped hi.1, hi.2]
  exact ⟨rfl, hi⟩

/-- The step of a walk comes to that of a lookup, if the walks to the traits and to the ancestors
do. -/
theorem Completes.enter {ix : Index}
    {merge : List String → List String → ClassDecl → Walk ClassDecl}
    {merge' : List String → List String → ClassDecl → Lookup ClassDecl}
    (hmerge : ∀ stack names c,
      Completes (Unchanged ix) (merge stack names c) (merge' stack names c))
    (hmerge' : ∀ stack names c, Ensures (Unchanged ix) (merge' stack names c) fun _ => True)
    {up : List String → String → Walk (Option ClassDecl × Bool)}
    {up' : List String → String → Lookup (Option ClassDecl × Bool)}
    (hup' : ∀ stack name, Ensures (Unchanged ix) (up' stack name) fun _ => True)
    {stack : List String} {name : String}
    (hup : ix.classes.contains (key name) = true → key name ∉ stack → ∀ ancestor,
      Completes (Unchanged ix) (up (key name :: stack) ancestor)
        (up' (key name :: stack) ancestor)) :
    Completes (Unchanged ix) (Index.enter merge up stack name)
      (Index.enter (m := Id) merge' up' stack name) := by
  refine .get fun i hi => ?_
  cases i.flattened.find? (key name) with
  | some c => rfl
  | none =>
    refine Completes.bind (completes_ask (own name)) (own_unchanged ix name)
      (fun found hfound => ?_) i hi
    cases found with
    | none => exact .pure _
    | some c =>
      dsimp only
      split
      · exact .pure _
      · rename_i hnew
        have hup := hup (contains_of_find? hfound.symm) (by simpa using hnew)
        refine (hmerge _ _ _).bind (hmerge' _ _ _) fun merged _ => ?_
        have hsteady := takeAncestor_steady (hup' (key name :: stack))
        refine Completes.bind (Completes.foldlM hsteady c.ancestors
          (fun sofar a _ => .takeAncestor (hup' _) (hup a.1) sofar) (merged, false))
          (Q := fun _ => True) ?_ ?_
        · exact Ensures.foldlM_inv c.ancestors (fun sofar a _ => hsteady sofar a) _ trivial
        · rintro ⟨merged, cyclic⟩ -
          cases cyclic <;> exact fun _ _ => rfl

/-- A class that is entered was not on the stack, and its ancestors are reached with one class more
on it. So there is always room for one more call. -/
theorem walkWithin_completes {ix : Index} {traitCalls : Nat} (htraits : traitDepth < traitCalls)
    (calls : Nat) :
    ∀ (bound : Nat) (stack : List String) (name : String),
      Trail (fun _ _ => True) ix.classes calls stack (key name) →
      Trail (fun _ _ => True) ix.classes bound stack (key name) →
      Completes (Unchanged ix) (walkWithin traitCalls calls stack name)
        (flatten bound stack name) := by
  have hV : Steady (Unchanged ix) := steady_unmapped ix
  induction calls with
  | zero =>
    intro bound stack name htrail
    obtain ⟨n, hn⟩ := htrail.pos
    omega
  | succ calls ih =>
    intro bound stack name htrail htrail'
    obtain ⟨bound, rfl⟩ := htrail'.pos
    rw [flatten_succ]
    refine Completes.enter
      (fun stack names c => mergeWithin_completes hV traitCalls 0 (Nat.zero_le _) htraits _ _ _ _)
      (fun stack names c => addTraits_steady hV _ _ _ _ _) (flatten_steady hV bound)
      fun hknown hnew ancestor => ?_
    exact ih bound _ ancestor (htrail.step hknown hnew trivial) (htrail'.step hknown hnew trivial)

/--
**The walk through the class graph ends**, whatever cycles there are. If no classes are loaded on
the way, it takes at most one call more inside each other than there are classes, and 22 for the
traits of a class. With these bounds or larger ones it has a result, which is that of `flatten`,
and `flatten` has the same result for every such bound.
-/
theorem walkWithin_eq_flatten {ix : Index} (hu : Unmapped ix) (name : String)
    {calls traitCalls : Nat} (hcalls : ix.classes.size + 1 ≤ calls) (htraits : 22 ≤ traitCalls) :
    walkWithin traitCalls calls [] name ix = some (flatten ix.bound [] name ix) ∧
      ∀ bound, ix.classes.size + 1 ≤ bound →
        flatten bound [] name ix = flatten ix.bound [] name ix := by
  have hwalk : ∀ bound, ix.classes.size < bound →
      walkWithin traitCalls calls [] name ix = some (flatten bound [] name ix) := by
    intro bound hbound
    exact walkWithin_completes htraits calls bound [] name (Trail.start hcalls _)
      (Trail.start hbound _) ix ⟨hu, rfl⟩
  have hbound : ix.classes.size < ix.bound := by unfold Index.bound; omega
  refine ⟨hwalk ix.bound hbound, fun bound hle => ?_⟩
  exact Option.some.inj ((hwalk bound hle).symm.trans (hwalk ix.bound hbound))

/-- A class that extends itself and uses two traits that use each other. Two calls inside each
other are needed for it, and there are three classes. -/
theorem walkWithin_eq_flatten_cycle :
    let ix := ({} : Index).add "a.php"
      "<?php class A extends A { use T; } trait T { use U, T; public $t; }
      trait U { use T; public $u; }"
    ix.classes.size = 3 ∧ (walkWithin 22 1 [] "A" ix).isNone = true ∧
      walkWithin 22 4 [] "A" ix = some (flatten ix.bound [] "A" ix) := by
  intro ix
  have hu : Unmapped ix := by intro p hp; simp [ix, add, addDecls] at hp
  have hsize : ix.classes.size = 3 := by decide +kernel
  exact ⟨hsize, by decide +kernel, (walkWithin_eq_flatten hu "A" (by omega) (Nat.le_refl 22)).1⟩

end ClassDocs.Index

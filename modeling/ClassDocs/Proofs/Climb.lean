import ClassDocs.Index.Flatten
import Mathlib.Data.List.Basic
import Mathlib.Logic.Relation

/-!
# Flattening without memory

`Index.flatten` remembers what it has finished, so what it gives depends, at first sight, on every
walk made before. This module has the walk with the memory taken out: `climb` reads a table of
classes and nothing else.

Two things decide whether a result of `climb` may be remembered. A class from which no cycle can be
reached is flattened the same way from everywhere: neither the classes on the way to it nor the
bound on the length of the way matter (`climb_eq_of_acc`). And a walk that did not run into its own
stack shows that no cycle can be reached from the class it started at (`acc_of_climb`). Both are
stated with the accessibility of the relation `Above`: the class graph seen from one class upwards.
-/

namespace ClassDocs.Index

variable {classes : Table ClassDecl}

/-- A class with the members of some traits of a table and the traits those use. -/
def adoptAll (classes : Table ClassDecl) :
    Nat → List String → Option String → List String → ClassDecl → ClassDecl
  | 0, _, _, _, c => c
  | depth + 1, stack, via, names, c =>
    names.foldl (fun c name =>
      match classes.find? (key name) with
      | none => c
      | some trait =>
        if stack.contains (key name) then c
        else
          adoptAll classes depth (key name :: stack) (some (via.getD trait.name)) trait.traits
            (c.addTrait trait (via.getD trait.name))) c

/-- A class with what it inherits from one ancestor, if that one was found. -/
def inheritFound (c : ClassDecl) (found : Option ClassDecl) (withProperties : Bool) : ClassDecl :=
  match found with
  | some ancestor => c.inherit ancestor withProperties
  | none => c

/-- The class of a key with the members of its traits and ancestors, and whether the walk ran into
`stack`, read off a table of classes. -/
def climb (classes : Table ClassDecl) : Nat → List String → String → Option ClassDecl × Bool
  | 0, _, _ => (none, false)
  | bound + 1, stack, k =>
    match classes.find? k with
    | none => (none, false)
    | some c =>
      if stack.contains k then (some c, true)
      else
        let above := c.ancestors.map fun a => (climb classes bound (k :: stack) (key a.1), a.2)
        let merged := adoptAll classes traitDepth (k :: stack) none c.traits c
        (some (above.foldl (fun m r => inheritFound m r.1.1 r.2) merged), above.any (·.1.2))

theorem climb_of_unknown {k : String} (h : classes.find? k = none) (bound : Nat)
    (stack : List String) :
    climb classes bound stack k = (none, false) := by
  cases bound with
  | zero => rfl
  | succ bound => simp only [climb, h]

theorem climb_of_met {k : String} {c : ClassDecl} (h : classes.find? k = some c)
    {stack : List String} (hk : k ∈ stack) (bound : Nat) :
    climb classes (bound + 1) stack k = (some c, true) := by
  have hcon : stack.contains k = true := by simpa using hk
  simp only [climb, h, hcon, if_true]

theorem climb_of_new {k : String} {c : ClassDecl} (h : classes.find? k = some c)
    {stack : List String} (hk : k ∉ stack) (bound : Nat) :
    climb classes (bound + 1) stack k =
      (some ((c.ancestors.map fun a => (climb classes bound (k :: stack) (key a.1), a.2)).foldl
          (fun m r => inheritFound m r.1.1 r.2)
          (adoptAll classes traitDepth (k :: stack) none c.traits c)),
        (c.ancestors.map fun a => (climb classes bound (k :: stack) (key a.1), a.2)).any
          (·.1.2)) := by
  have hcon : stack.contains k = false := by simpa using hk
  simp only [climb, h, hcon, Bool.false_eq_true, if_false]

/-- A known class is flattened from everywhere. -/
theorem climb_found {k : String} {c : ClassDecl} (h : classes.find? k = some c) (bound : Nat)
    (stack : List String) :
    ∃ m, (climb classes (bound + 1) stack k).1 = some m := by
  by_cases hk : k ∈ stack
  · exact ⟨_, by rw [climb_of_met h hk]⟩
  · exact ⟨_, by rw [climb_of_new h hk]⟩

/-! ## What flattening leaves alone -/

/-- `m` is `c` but for its members. -/
def Headed (c m : ClassDecl) : Prop :=
  m = { c with constants := m.constants, properties := m.properties, methods := m.methods }

theorem Headed.parent {c m : ClassDecl} (h : Headed c m) : m.parent = c.parent := by rw [h]

theorem Headed.addMembers {c m : ClassDecl} (h : Headed c m) (other : ClassDecl)
    (mark : Member → Member) :
    Headed c (m.addMembers other mark) := by
  unfold Headed ClassDecl.addMembers
  rw [h]

theorem headed_foldl {α : Type} {c : ClassDecl} {f : ClassDecl → α → ClassDecl}
    (hf : ∀ m a, Headed c m → Headed c (f m a)) :
    ∀ (l : List α) (m : ClassDecl), Headed c m → Headed c (l.foldl f m) := by
  intro l
  induction l with
  | nil => intro m h; exact h
  | cons a l ih => intro m h; exact ih _ (hf m a h)

theorem adoptAll_headed {c : ClassDecl} (depth : Nat) :
    ∀ (stack : List String) (via : Option String) (names : List String) (m : ClassDecl),
      Headed c m → Headed c (adoptAll classes depth stack via names m) := by
  induction depth with
  | zero => intro stack via names m h; exact h
  | succ depth ih =>
    intro stack via names
    simp only [adoptAll]
    refine headed_foldl (fun m name h => ?_) names
    split
    · exact h
    · split
      · exact h
      · exact ih _ _ _ _ (h.addMembers _ _)

/-- **A flattened class is its own declaration but for the members.** -/
theorem headed_of_climb {bound : Nat} {stack : List String} {k : String} {m : ClassDecl}
    (h : (climb classes bound stack k).1 = some m) :
    ∃ c, classes.find? k = some c ∧ Headed c m := by
  cases bound with
  | zero => simp [climb] at h
  | succ bound =>
    cases hc : classes.find? k with
    | none => rw [climb_of_unknown hc] at h; simp at h
    | some c =>
      refine ⟨c, rfl, ?_⟩
      by_cases hk : k ∈ stack
      · rw [climb_of_met hc hk] at h
        obtain rfl := Option.some.inj h
        rfl
      · rw [climb_of_new hc hk] at h
        obtain rfl := Option.some.inj h
        refine headed_foldl (fun m r hm => ?_) _ _ (adoptAll_headed _ _ _ _ _ rfl)
        unfold inheritFound
        split
        · exact hm.addMembers _ _
        · exact hm

/-! ## The class graph -/

/-- `Above classes a k`: the class of key `k` names `a` as its parent or as one of its
interfaces. -/
def Above (classes : Table ClassDecl) (a k : String) : Prop :=
  ∃ c, classes.find? k = some c ∧ ∃ ancestor ∈ c.ancestors, key ancestor.1 = a

/-- What reaches no cycle is not above itself. -/
theorem not_above_self {r : String → String → Prop} {k : String} (h : Acc r k) :
    ¬ Relation.TransGen r k k := by
  have irrefl : ∀ x, Acc (Relation.TransGen r) x → ¬ Relation.TransGen r x x := by
    intro x hx
    induction hx with
    | intro x _ ih => intro hxx; exact ih x hxx hxx
  exact irrefl k h.transGen

/--
The classes on the way to `k`, as a walk along `r` that is about to enter `k` holds them: each
once, each known, each below `k`, and with room for all classes that the walk has not met yet.
-/
structure Trail (r : String → String → Prop) (classes : Table ClassDecl) (bound : Nat)
    (stack : List String) (k : String) : Prop where
  nodup : stack.Nodup
  known : ∀ s ∈ stack, classes.contains s = true
  below : ∀ s ∈ stack, Relation.TransGen r k s
  /-- The bound is larger than the number of classes that are not on the stack. -/
  room : classes.size < bound + stack.length

variable {r : String → String → Prop}

theorem Trail.start {bound : Nat} (h : classes.size < bound) (k : String) :
    Trail r classes bound [] k :=
  ⟨List.nodup_nil, by simp, by simp, by simpa using h⟩

/-- What reaches no cycle is not on the way to itself. -/
theorem Trail.not_mem {bound : Nat} {stack : List String} {k : String}
    (h : Trail r classes bound stack k) (hacc : Acc r k) : k ∉ stack :=
  fun hm => not_above_self hacc (h.below k hm)

theorem mem_keys_of_contains {k : String} (h : classes.contains k = true) : k ∈ classes.keys := by
  obtain ⟨entries⟩ := classes
  simp only [Table.contains, Table.find?, Table.keys] at *
  induction entries with
  | nil => simp at h
  | cons e rest ih =>
    obtain ⟨k', v'⟩ := e
    rw [List.map_cons, List.mem_cons]
    by_cases hk : k = k'
    · exact Or.inl hk
    · have hb : (k == k') = false := by simpa using hk
      rw [List.lookup_cons, hb] at h
      exact Or.inr (ih h)

/-- Known classes without repetition are no more than the table has. -/
theorem length_le_size {stack : List String} (hnd : stack.Nodup)
    (hk : ∀ s ∈ stack, classes.contains s = true) : stack.length ≤ classes.size := by
  have hsub : stack ⊆ classes.keys := fun s hs => mem_keys_of_contains (hk s hs)
  have hle := hnd.length_le_of_subset hsub
  simpa [Table.keys, Table.size] using hle

theorem Trail.pos {bound : Nat} {stack : List String} {k : String}
    (h : Trail r classes bound stack k) :
    ∃ n, bound = n + 1 := by
  -- the stack alone cannot use up the bound: it holds no more classes than there are
  have hle := length_le_size h.nodup h.known
  have hroom := h.room
  exact ⟨bound - 1, by omega⟩

/-- A walk enters a new class and goes on to one above it. -/
theorem Trail.step {bound : Nat} {stack : List String} {k a : String}
    (h : Trail r classes (bound + 1) stack k) (hknown : classes.contains k = true) (hk : k ∉ stack)
    (ha : r a k) : Trail r classes bound (k :: stack) a where
  nodup := List.nodup_cons.mpr ⟨hk, h.nodup⟩
  known := List.forall_mem_cons.mpr ⟨hknown, h.known⟩
  below := List.forall_mem_cons.mpr ⟨.single ha, fun s hs => .head ha (h.below s hs)⟩
  room := by
    have := h.room
    simp only [List.length_cons]
    omega

theorem contains_of_find? {k : String} {c : ClassDecl} (h : classes.find? k = some c) :
    classes.contains k = true := by
  simp [Table.contains, h]

/-! ## Traits do not see the way up -/

/-- `Uses classes t k`: the class of key `k` names `t` among its traits. -/
def Uses (classes : Table ClassDecl) (t k : String) : Prop :=
  ∃ c, classes.find? k = some c ∧ ∃ name ∈ c.traits, key name = t

/--
No class is used as a trait, directly or through other traits, by a class above it. So it is if
only traits are used as traits, since nothing is above a trait.
-/
def Apart (classes : Table ClassDecl) : Prop :=
  ∀ t k, Relation.TransGen (Uses classes) t k → ¬ Relation.TransGen (Above classes) k t

/-- Two stacks hold the same of what the class of key `k` uses. -/
def SameUsed (classes : Table ClassDecl) (k : String) (s s' : List String) : Prop :=
  ∀ t, Relation.TransGen (Uses classes) t k → s.contains t = s'.contains t

theorem SameUsed.cons {k : String} {s s' : List String} (h : SameUsed classes k s s')
    (t : String) :
    SameUsed classes k (t :: s) (t :: s') := by
  intro t' ht'
  rw [List.contains_cons, List.contains_cons, h t' ht']

/-- The members taken from traits depend on those of the stack only that are used. -/
theorem adoptAll_congr {k : String} (depth : Nat) :
    ∀ {s s' : List String}, SameUsed classes k s s' →
      ∀ (via : Option String) (names : List String),
      (∀ name ∈ names, Relation.TransGen (Uses classes) (key name) k) → ∀ c : ClassDecl,
      adoptAll classes depth s via names c = adoptAll classes depth s' via names c := by
  induction depth with
  | zero => intros; rfl
  | succ depth ih =>
    intro s s' hs via names hnames c
    simp only [adoptAll]
    apply List.foldl_ext
    intro c name hname
    split
    · rfl
    · rename_i trait hfound
      rw [hs (key name) (hnames name hname)]
      split
      · rfl
      · refine ih (hs.cons (key name)) _ _ (fun name' hname' => ?_) _
        exact .head ⟨trait, hfound, name', hname', rfl⟩ (hnames name hname)

/-- Nothing that a class uses is on the way to it: what is there has the class above it. -/
theorem Trail.sameUsed (hapart : Apart classes) {b b' : Nat} {s s' : List String} {k : String}
    (h : Trail (Above classes) classes b s k) (h' : Trail (Above classes) classes b' s' k) :
    SameUsed classes k s s' := by
  intro t ht
  have hs : t ∉ s := fun hmem => hapart t k ht (h.below t hmem)
  have hs' : t ∉ s' := fun hmem => hapart t k ht (h'.below t hmem)
  simp [hs, hs']

/-! ## Where the way up has no cycle -/

/-- **From a class that reaches no cycle every walk is the same**, and none runs into its stack. -/
theorem climb_eq_of_acc (hapart : Apart classes) {k : String} (hacc : Acc (Above classes) k) :
    ∀ {b b' : Nat} {s s' : List String}, Trail (Above classes) classes b s k →
      Trail (Above classes) classes b' s' k →
      climb classes b s k = climb classes b' s' k ∧ (climb classes b s k).2 = false := by
  induction hacc with
  | intro k hsub ih =>
    have hself : Acc (Above classes) k := ⟨k, hsub⟩
    intro b b' s s' h h'
    cases hc : classes.find? k with
    | none => simp [climb_of_unknown hc]
    | some c =>
      have hks := h.not_mem hself
      have hks' := h'.not_mem hself
      obtain ⟨n, rfl⟩ := h.pos
      obtain ⟨n', rfl⟩ := h'.pos
      rw [climb_of_new hc hks, climb_of_new hc hks']
      -- the two stacks stay different, but what is above `k` is on neither of them
      have hrec : ∀ a ∈ c.ancestors,
          climb classes n (k :: s) (key a.1) = climb classes n' (k :: s') (key a.1)
            ∧ (climb classes n (k :: s) (key a.1)).2 = false := by
        intro a ha
        have habove : Above classes (key a.1) k := ⟨c, hc, a, ha, rfl⟩
        have hknown := contains_of_find? hc
        exact ih (key a.1) habove (h.step hknown hks habove) (h'.step hknown hks' habove)
      have hmap : (c.ancestors.map fun a => (climb classes n (k :: s) (key a.1), a.2))
          = c.ancestors.map fun a => (climb classes n' (k :: s') (key a.1), a.2) :=
        List.map_congr_left fun a ha => by rw [(hrec a ha).1]
      -- traits are looked up with the stack in hand, which holds none of them
      have hadopt := adoptAll_congr traitDepth ((h.sameUsed hapart h').cons k) none c.traits
        (fun name hname => .single ⟨c, hc, name, hname, rfl⟩) c
      refine ⟨by rw [hmap, hadopt], ?_⟩
      rw [List.any_map, List.any_eq_false]
      intro a ha
      simpa using (hrec a ha).2

/-- No cycle is reached from an unknown class. -/
theorem acc_of_unknown {k : String} (h : classes.find? k = none) : Acc (Above classes) k := by
  refine ⟨k, ?_⟩
  rintro a ⟨c, hc, -⟩
  rw [h] at hc
  cases hc

/-- No cycle is reached from a class if none is reached from its ancestors. -/
theorem acc_of_ancestors {k : String} {c : ClassDecl} (h : classes.find? k = some c)
    (hacc : ∀ a ∈ c.ancestors, Acc (Above classes) (key a.1)) : Acc (Above classes) k := by
  refine ⟨k, ?_⟩
  rintro _ ⟨c', hc', a, ha, rfl⟩
  rw [h] at hc'
  obtain rfl := Option.some.inj hc'
  exact hacc a ha

/-- **A walk that does not run into its stack** has met no cycle. -/
theorem acc_of_climb {b : Nat} :
    ∀ {s : List String} {k : String}, Trail (Above classes) classes b s k →
    (climb classes b s k).2 = false → Acc (Above classes) k := by
  induction b with
  | zero =>
    intro s k h _
    obtain ⟨n, hn⟩ := h.pos
    omega
  | succ b ih =>
    intro s k h hflag
    cases hc : classes.find? k with
    | none => exact acc_of_unknown hc
    | some c =>
      by_cases hks : k ∈ s
      · rw [climb_of_met hc hks] at hflag
        exact absurd hflag (by simp)
      · -- no walk from above ran into the stack, so by induction none of those classes reaches a
        -- cycle
        rw [climb_of_new hc hks, List.any_map, List.any_eq_false] at hflag
        refine acc_of_ancestors hc fun a ha => ?_
        exact ih (h.step (contains_of_find? hc) hks ⟨c, hc, a, ha, rfl⟩)
          (by simpa using hflag a ha)

end ClassDocs.Index

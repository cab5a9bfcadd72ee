import ClassDocs.Proofs.Added
import ClassDocs.Proofs.Climb
import ClassDocs.Proofs.Declared

/-!
# The memory of the index

An index without autoload mappings answers every question from its table of classes; what it
remembers only saves work. The states that such an index can be in while its table stays the same
are its *variants* (`Variant`): they differ in the flattened classes they remember, and each of
these is what a walk without memory finds for a class that reaches no cycle.

A lookup *answers* `a` (`Answers`) if it gives `a` in every variant and leaves a variant behind.
The notion is closed under sequencing, so that whatever is built from lookups of declarations and
flattened classes gives one answer, whatever was asked before. That `flatten` itself answers what
`climb` finds is `flatten_answers`.
-/

namespace ClassDocs.Index

/-- The index has no autoload mappings: an unknown class stays unknown. -/
def Unmapped (ix : Index) : Prop := ∀ p, ix.project = some p → p.mappings = []

/-- Without mappings the lookup of a declaration reads the table and changes nothing. -/
theorem own_of_unmapped {ix : Index} (h : Unmapped ix) (className : String) :
    own className ix = (ix.classes.find? (key className), ix) := by
  have hload : ix.autoload className = ix := by
    unfold autoload
    cases hp : ix.project with
    | none => rfl
    | some p => simp [h p hp]
  unfold own
  cases hfound : ix.classes.find? (key className) with
  | none => simp only [hload, hfound]
  | some c => rfl

theorem get_bind {α : Type} (f : Index → Lookup α) (i : Index) : (get >>= f) i = f i i := rfl

theorem own_bind {α : Type} {i : Index} (hu : Unmapped i) (name : String)
    (f : Option ClassDecl → Lookup α) :
    (own name >>= f) i = f (i.classes.find? (key name)) i := by
  show f (own name i).1 (own name i).2 = _
  rw [own_of_unmapped hu]

/-- `c` may be remembered for the class of key `k`: no cycle is reached from there, and `c` is what
a walk without memory finds. -/
def Rememberable (classes : Table ClassDecl) (k : String) (c : ClassDecl) : Prop :=
  Acc (Above classes) k ∧ climb classes (classes.size + 1) [] k = (some c, false)

/-- `ix'` is `ix` but for the flattened classes it remembers, and all of these may be
remembered. -/
structure Variant (ix ix' : Index) : Prop where
  same : ix' = { ix with flattened := ix'.flattened }
  memory : ∀ k c, ix'.flattened.find? k = some c → Rememberable ix.classes k c

theorem Variant.classes {ix ix' : Index} (h : Variant ix ix') : ix'.classes = ix.classes := by
  rw [h.same]

theorem Variant.project {ix ix' : Index} (h : Variant ix ix') : ix'.project = ix.project := by
  rw [h.same]

theorem Variant.bound {ix ix' : Index} (h : Variant ix ix') : ix'.bound = ix.bound := by
  simp only [Index.bound, h.classes, h.project]

/-- Forgetting everything gives a variant. -/
theorem variant_forget (ix : Index) : Variant ix { ix with flattened := {} } :=
  ⟨rfl, by intro k c h; simp at h⟩

theorem variant_of_nothing {ix : Index} (h : ix.flattened = {}) : Variant ix ix :=
  ⟨rfl, by intro k c hc; rw [h] at hc; simp at hc⟩

theorem Variant.remember {ix ix' : Index} (h : Variant ix ix') {k : String} {c : ClassDecl}
    (hc : Rememberable ix.classes k c) :
    Variant ix { ix' with flattened := ix'.flattened.insert k c } where
  same := by rw [h.same]
  memory := by
    intro k' c' hfind
    rw [Table.find?_insert] at hfind
    split at hfind
    · rename_i heq
      obtain rfl := Option.some.inj hfind
      rw [beq_iff_eq] at heq
      subst heq
      exact hc
    · exact h.memory k' c' hfind

/-! ## Lookups that keep to some states -/

variable {ix : Index} {α β : Type}

/-- From every state in `V` a lookup gives a result in `Q` and stays in `V`. -/
def Ensures (V : Index → Prop) (m : Lookup α) (Q : α → Prop) : Prop :=
  ∀ ix', V ix' → Q (m ix').1 ∧ V (m ix').2

theorem Ensures.pure {V : Index → Prop} {Q : α → Prop} {a : α} (h : Q a) : Ensures V (pure a) Q :=
  fun _ hV => ⟨h, hV⟩

theorem Ensures.bind {V : Index → Prop} {m : Lookup α} {f : α → Lookup β} {Q : α → Prop}
    {R : β → Prop} (hm : Ensures V m Q) (hf : ∀ a, Q a → Ensures V (f a) R) :
    Ensures V (m >>= f) R := by
  intro ix' hV
  obtain ⟨hQ, hV'⟩ := hm ix' hV
  exact hf _ hQ _ hV'

/-- A lookup that starts by looking at the state. -/
theorem Ensures.get {V : Index → Prop} {f : Index → Lookup β} {R : β → Prop}
    (hf : ∀ ix', V ix' → R (f ix' ix').1 ∧ V (f ix' ix').2) : Ensures V (get >>= f) R := hf

theorem Ensures.modify {V : Index → Prop} {f : Index → Index} (hf : ∀ ix', V ix' → V (f ix')) :
    Ensures V (modify f) fun _ => True := fun ix' hV => ⟨trivial, hf ix' hV⟩

theorem Ensures.foldlM {V : Index → Prop} {σ : Type} {f : σ → α → Lookup σ}
    {R : List α → σ → Prop} :
    ∀ (l : List α), (∀ s a rest, a ∈ l → R (a :: rest) s → Ensures V (f s a) (R rest)) →
      ∀ s, R l s → Ensures V (l.foldlM f s) (R []) := by
  intro l
  induction l with
  | nil => intro _ s hs; exact Ensures.pure hs
  | cons a l ih =>
    intro h s hs
    rw [List.foldlM_cons]
    refine (h s a l (by simp) hs).bind fun s' hs' => ?_
    exact ih (fun s a rest ha => h s a rest (List.mem_cons_of_mem _ ha)) s' hs'

/-- An invariant of the steps of a loop holds at its end. -/
theorem Ensures.foldlM_inv {V : Index → Prop} {σ : Type} {f : σ → α → Lookup σ} {P : σ → Prop}
    (l : List α) (h : ∀ s a, P s → Ensures V (f s a) P) (s : σ) (hs : P s) :
    Ensures V (l.foldlM f s) P :=
  Ensures.foldlM (R := fun _ => P) l (fun s a _ _ hs => h s a hs) s hs

/-- A loop of lookups, each of which gives what a plain step does. -/
theorem Ensures.foldl {V : Index → Prop} {σ : Type} {f : σ → α → Lookup σ}
    {g : σ → α → σ} (l : List α) (h : ∀ s, ∀ a ∈ l, Ensures V (f s a) (· = g s a)) (s : σ) :
    Ensures V (l.foldlM f s) (· = l.foldl g s) := by
  refine Ensures.foldlM (R := fun rest s' => rest.foldl g s' = l.foldl g s) l ?_ s rfl
  intro s' a rest ha hs' ix' hV
  obtain ⟨hval, hV'⟩ := h s' a ha ix' hV
  exact ⟨by rw [hval]; exact hs', hV'⟩

/-- A lookup gives `a` whatever is remembered, and remembers nothing wrong. -/
def Answers (ix : Index) (m : Lookup α) (a : α) : Prop := Ensures (Variant ix) m (· = a)

theorem Answers.pure (a : α) : Answers ix (pure a) a := Ensures.pure rfl

theorem Answers.bind {m : Lookup α} {f : α → Lookup β} {a : α} {b : β} (hm : Answers ix m a)
    (hf : Answers ix (f a) b) : Answers ix (m >>= f) b :=
  Ensures.bind hm fun _ ha => ha ▸ hf

theorem Answers.foldlM {σ : Type} {f : σ → α → Lookup σ} {g : σ → α → σ} (l : List α)
    (h : ∀ s, ∀ a ∈ l, Answers ix (f s a) (g s a)) (s : σ) :
    Answers ix (l.foldlM f s) (l.foldl g s) :=
  Ensures.foldl l h s

theorem own_answers (hu : Unmapped ix) (name : String) :
    Answers ix (own name) (ix.classes.find? (key name)) := by
  intro ix' h
  have hu' : Unmapped ix' := fun p hp => hu p (h.project ▸ hp)
  rw [own_of_unmapped hu' name, h.classes]
  exact ⟨rfl, h⟩

/-- Taking the members of traits reads declarations and nothing else. -/
theorem addTraits_reads {V : Index → Prop} {classes : Table ClassDecl}
    (hown : ∀ name, Ensures V (own name) (· = classes.find? (key name))) (depth : Nat) :
    ∀ (stack : List String) (via : Option String) (names : List String) (c : ClassDecl),
      Ensures V (addTraits depth stack via names c)
        (· = adoptAll classes depth stack via names c) := by
  induction depth with
  | zero => intro stack via names c; exact Ensures.pure rfl
  | succ depth ih =>
    intro stack via names c
    simp only [addTraits, adoptAll]
    refine Ensures.foldl names ?_ c
    intro c name _
    refine (hown name).bind fun found hfound => ?_
    rw [← hfound]
    cases found with
    | none => exact Ensures.pure rfl
    | some trait =>
      simp only
      split
      · exact Ensures.pure rfl
      · exact ih _ _ _ _

theorem addTraits_answers (hu : Unmapped ix) (depth : Nat) (stack : List String)
    (via : Option String) (names : List String) (c : ClassDecl) :
    Answers ix (addTraits depth stack via names c) (adoptAll ix.classes depth stack via names c) :=
  addTraits_reads (own_answers hu) depth stack via names c

/-- The two halves of what is taken from ancestors can be gathered one after the other. -/
theorem foldl_inheritFound (walk : String × Bool → Option ClassDecl × Bool)
    (ancestors : List (String × Bool)) :
    ∀ (c : ClassDecl) (cyclic : Bool),
      ancestors.foldl (fun sofar a => (inheritFound sofar.1 (walk a).1 a.2, sofar.2 || (walk a).2))
        (c, cyclic)
        = ((ancestors.map fun a => (walk a, a.2)).foldl (fun m r => inheritFound m r.1.1 r.2) c,
          cyclic || (ancestors.map fun a => (walk a, a.2)).any (·.1.2)) := by
  induction ancestors with
  | nil => intro c cyclic; simp
  | cons a ancestors ih =>
    intro c cyclic
    rw [List.foldl_cons, ih, List.map_cons, List.foldl_cons, List.any_cons, Bool.or_assoc]

theorem addAncestor_answers {walk : String → Lookup (Option ClassDecl × Bool)}
    {sofar : ClassDecl × Bool} {a : String × Bool} {r : Option ClassDecl × Bool}
    (h : Answers ix (walk a.1) r) :
    Answers ix (addAncestor walk sofar a) (inheritFound sofar.1 r.1 a.2, sofar.2 || r.2) := by
  refine h.bind ?_
  obtain ⟨found, cyclic⟩ := r
  cases found <;> exact Answers.pure _

/-- The end of a walk: what was found is remembered if no cycle was met. -/
theorem keep_answers (hapart : Apart ix.classes) {bound : Nat} {stack : List String} {k : String}
    (htrail : Trail (Above ix.classes) ix.classes bound stack k) {c : ClassDecl} {cyclic : Bool}
    (hclimb : climb ix.classes bound stack k = (some c, cyclic)) :
    Answers ix (do
      if !cyclic then
        modify fun ix => { ix with flattened := ix.flattened.insert k c }
      return (some c, cyclic)) (some c, cyclic) := by
  cases cyclic with
  | true => exact Answers.pure _
  | false =>
    -- no cycle was met, so a walk with an empty stack finds the same
    have hacc : Acc (Above ix.classes) k := acc_of_climb htrail (by rw [hclimb])
    have hstart := Trail.start (r := Above ix.classes) (Nat.lt_succ_self ix.classes.size) k
    have hrem : Rememberable ix.classes k c :=
      ⟨hacc, by rw [← (climb_eq_of_acc hapart hacc htrail hstart).1, hclimb]⟩
    exact Ensures.bind (Ensures.modify fun ix' h => h.remember hrem) fun _ _ => Answers.pure _

/-- **Flattening answers what a walk without memory finds.** -/
theorem flatten_answers (hu : Unmapped ix) (hapart : Apart ix.classes) (bound : Nat) :
    ∀ (stack : List String) (name : String),
      Trail (Above ix.classes) ix.classes bound stack (key name) →
      Answers ix (flatten bound stack name) (climb ix.classes bound stack (key name)) := by
  induction bound with
  | zero => intro stack name _; exact Answers.pure _
  | succ bound ih =>
    intro stack name htrail
    simp only [flatten]
    refine Ensures.get ?_
    intro ix' h
    cases hmem : ix'.flattened.find? (key name) with
    | some c =>
      -- what is remembered was found from elsewhere, with another stack
      obtain ⟨hacc, hclimb⟩ := h.memory (key name) c hmem
      have hstart :=
        Trail.start (r := Above ix.classes) (Nat.lt_succ_self ix.classes.size) (key name)
      rw [(climb_eq_of_acc hapart hacc htrail hstart).1, hclimb]
      exact ⟨rfl, h⟩
    | none =>
      refine Answers.bind (own_answers hu name) ?_ ix' h
      cases hc : ix.classes.find? (key name) with
      | none => rw [climb_of_unknown hc]; exact Answers.pure _
      | some c =>
        by_cases hks : key name ∈ stack
        · have hcon : stack.contains (key name) = true := by simpa using hks
          rw [climb_of_met hc hks]
          simp only [hcon, if_true]
          exact Answers.pure _
        · have hcon : stack.contains (key name) = false := by simpa using hks
          simp only [hcon, Bool.false_eq_true, if_false]
          refine (addTraits_answers hu _ _ _ _ _).bind ?_
          refine Answers.bind (Answers.foldlM c.ancestors (fun sofar a ha =>
            addAncestor_answers
              (ih _ _ (htrail.step (contains_of_find? hc) hks ⟨c, hc, a, ha, rfl⟩))) _) ?_
          have hclimb := climb_of_new hc hks bound
          rw [foldl_inheritFound fun a => climb ix.classes bound (key name :: stack) (key a.1),
            Bool.false_or, hclimb]
          exact keep_answers hapart htrail hclimb

theorem describe?_answers (hu : Unmapped ix) (hapart : Apart ix.classes) (name : String) :
    Answers ix (describe? name) (climb ix.classes ix.bound [] (key name)).1 := by
  refine Ensures.get ?_
  intro ix' h
  have hroom : ix.classes.size < ix.bound := by unfold Index.bound; omega
  have hflat := flatten_answers hu hapart ix.bound [] name (Trail.start hroom _)
  rw [h.bound]
  exact hflat.bind (Answers.pure (climb ix.classes ix.bound [] (key name)).1) ix' h

/-- What asking for a class by name comes to, given what is found. -/
def described {α : Type} (name : String) (found : Option α) : Except Failure α :=
  match found with
  | some c => .ok c
  | none => .error (.unknownClass name)

theorem describe_apply (name : String) (ix : Index) :
    describe name ix = (described name (describe? name ix).1, (describe? name ix).2) := by
  have heq : describe name = describe? name >>= fun found => pure (described name found) := by
    unfold describe
    refine bind_congr fun found => ?_
    cases found <;> rfl
  rw [heq]
  rfl

theorem describe_answers (hu : Unmapped ix) (hapart : Apart ix.classes) (name : String) :
    Answers ix (describe name) (described name (climb ix.classes ix.bound [] (key name)).1) := by
  intro ix' h
  obtain ⟨hfound, hvariant⟩ := describe?_answers hu hapart name ix' h
  rw [describe_apply, hfound]
  exact ⟨rfl, hvariant⟩

/-! ## Walks leave the table alone -/

/-- `ix'` is `ix` but for the flattened classes it remembers, whatever these are, as long as they
are known classes. -/
structure SameTable (ix ix' : Index) : Prop where
  same : ix' = { ix with flattened := ix'.flattened }
  known : ∀ k c, ix'.flattened.find? k = some c → ix.classes.contains k = true

theorem SameTable.classes {ix ix' : Index} (h : SameTable ix ix') : ix'.classes = ix.classes := by
  rw [h.same]

theorem SameTable.unmapped {ix ix' : Index} (h : SameTable ix ix') (hu : Unmapped ix) :
    Unmapped ix' := by
  intro p hp
  rw [h.same] at hp
  exact hu p hp

theorem SameTable.bound {ix ix' : Index} (h : SameTable ix ix') : ix'.bound = ix.bound := by
  rw [h.same]
  rfl

/-- The bound on the length of the way up exceeds the number of classes. -/
theorem SameTable.room {ix ix' : Index} (h : SameTable ix ix') : ix.classes.size < ix'.bound := by
  rw [h.bound]
  unfold Index.bound
  omega

/-- A lookup changes nothing but what is remembered. -/
def Keeps (ix : Index) (m : Lookup α) : Prop := Ensures (SameTable ix) m fun _ => True

theorem Keeps.bind {m : Lookup α} {f : α → Lookup β} (hm : Keeps ix m) (hf : ∀ a, Keeps ix (f a)) :
    Keeps ix (m >>= f) := Ensures.bind hm fun a _ => hf a

theorem Keeps.pure (a : α) : Keeps ix (pure a) := Ensures.pure trivial

theorem Keeps.foldlM {σ : Type} {f : σ → α → Lookup σ} (h : ∀ s a, Keeps ix (f s a))
    (l : List α) (s : σ) :
    Keeps ix (l.foldlM f s) :=
  Ensures.foldlM_inv l (fun s a _ => h s a) s trivial

theorem Ensures.keeps {m : Lookup α} {Q : α → Prop} (h : Ensures (SameTable ix) m Q) :
    Keeps ix m :=
  fun ix' hV => ⟨trivial, (h ix' hV).2⟩

theorem own_reads (hu : Unmapped ix) (name : String) :
    Ensures (SameTable ix) (own name) (· = ix.classes.find? (key name)) := by
  intro ix' h
  rw [own_of_unmapped (h.unmapped hu), h.classes]
  exact ⟨rfl, h⟩

theorem addTraits_keeps (hu : Unmapped ix) (depth : Nat) (stack : List String)
    (via : Option String) (names : List String) (c : ClassDecl) :
    Keeps ix (addTraits depth stack via names c) :=
  (addTraits_reads (own_reads hu) depth stack via names c).keeps

theorem remember_keeps {k : String} (hk : ix.classes.contains k = true) (c : ClassDecl) :
    Keeps ix (modify fun ix => { ix with flattened := ix.flattened.insert k c }) := by
  refine Ensures.modify fun ix' h => ⟨by rw [h.same], ?_⟩
  intro k' c' hfind
  rw [Table.find?_insert] at hfind
  split at hfind
  · rename_i heq
    rw [beq_iff_eq] at heq
    rw [heq]
    exact hk
  · exact h.known k' c' hfind

/-- A walk finds the known classes, and leaves the table alone. -/
theorem flatten_finds (hu : Unmapped ix) (bound : Nat) :
    ∀ (stack : List String) (name : String),
      Ensures (SameTable ix) (flatten bound stack name) fun r =>
      0 < bound → r.1.isSome = ix.classes.contains (key name) := by
  induction bound with
  | zero => intro stack name; exact Ensures.pure fun h => absurd h (Nat.lt_irrefl 0)
  | succ bound ih =>
    intro stack name
    simp only [flatten]
    refine Ensures.get ?_
    intro ix' h
    cases hmem : ix'.flattened.find? (key name) with
    | some c => exact ⟨fun _ => (h.known _ _ hmem).symm, h⟩
    | none =>
      refine Ensures.bind
        (R := fun r : Option ClassDecl × Bool => 0 < bound + 1 →
          r.1.isSome = ix.classes.contains (key name))
        (own_reads hu name) (fun found hfound => ?_) ix' h
      rw [Table.contains, ← hfound]
      cases found with
      | none => exact Ensures.pure fun _ => rfl
      | some c =>
        simp only
        split
        · exact Ensures.pure fun _ => rfl
        · refine Ensures.bind (addTraits_keeps hu _ _ _ _ _) fun merged _ => ?_
          refine Ensures.bind
            (Keeps.foldlM (fun sofar a => (ih _ _).keeps.bind fun _ => Keeps.pure _) _ _)
            fun result _ => ?_
          obtain ⟨merged, cyclic⟩ := result
          cases cyclic with
          | true => exact Ensures.pure fun _ => rfl
          | false =>
            have hknown : ix.classes.contains (key name) = true := contains_of_find? hfound.symm
            exact Ensures.bind (remember_keeps hknown merged) fun _ _ => Ensures.pure fun _ => rfl

theorem describe?_finds (hu : Unmapped ix) (name : String) :
    Ensures (SameTable ix) (describe? name) fun found => found.isSome =
      ix.classes.contains (key name) := by
  refine Ensures.get fun ix' h => ?_
  have hpos : 0 < ix'.bound := Nat.succ_pos _
  exact Ensures.bind
    (R := fun found : Option ClassDecl => found.isSome = ix.classes.contains (key name))
    (flatten_finds hu ix'.bound [] name) (fun r hr => Ensures.pure (hr hpos)) ix' h

theorem describe_keeps (hu : Unmapped ix) (name : String) : Keeps ix (describe name) := by
  intro ix' h
  rw [describe_apply]
  exact (describe?_finds hu name).keeps ix' h

/-! ## Every state of an index -/

/-- The states of an index without mappings: a new one, and what adding files, looking declarations
up and describing classes make of it. -/
inductive Reachable : Index → Prop where
  | new {parser : Source.Parser} {project : Option Project} :
      Unmapped { project } → Reachable { parser, project }
  | add {ix : Index} (file content : String) : Reachable ix → Reachable (ix.add file content)
  | own {ix : Index} (name : String) : Reachable ix → Reachable (Index.own name ix).2
  | describe {ix : Index} (name : String) : Reachable ix → Reachable (Index.describe name ix).2

/-- **Only traits are used as traits**, as far as the names used are known. -/
def UsesTraits (classes : Table ClassDecl) : Prop :=
  ∀ c ∈ classes.values, ∀ t ∈ c.traits, ∀ d ∈ classes.find? (key t), d.kind = .trait

instance (classes : Table ClassDecl) : Decidable (UsesTraits classes) :=
  inferInstanceAs (Decidable
    (∀ c ∈ classes.values, ∀ t ∈ c.traits, ∀ d ∈ classes.find? (key t), d.kind = .trait))

theorem mem_values_of_find? {α : Type} {t : Table α} {k : String} {v : α}
    (h : t.find? k = some v) :
    v ∈ t.values := by
  obtain ⟨entries⟩ := t
  simp only [Table.find?, Table.values] at *
  induction entries with
  | nil => simp at h
  | cons e rest ih =>
    obtain ⟨k', v'⟩ := e
    rw [List.map_cons, List.mem_cons]
    cases hb : k == k' with
    | true =>
      rw [List.lookup_cons, hb] at h
      exact Or.inl (Option.some.inj h).symm
    | false =>
      rw [List.lookup_cons, hb] at h
      exact Or.inr (ih h)

/-- What holds in every state: no mappings, only declarations from files, only known classes
remembered, and nothing remembered that a walk would not find if no class is used as a trait from
above. -/
structure Sound (ix : Index) : Prop where
  unmapped : Unmapped ix
  table : SameTable ix ix
  declared : ∀ k c, ix.classes.find? k = some c →
    ∃ (parser : Source.Parser) (path content : String), c ∈ parser.classes path content
  memory : Apart ix.classes → Variant ix ix

/-- Where only traits are used as traits nothing is used as a trait from above, since nothing is
above a trait. -/
theorem Sound.apart (h : Sound ix) (hu : UsesTraits ix.classes) : Apart ix.classes := by
  intro t k huses habove
  obtain ⟨user, ⟨u, hfound, name, hname, hkey⟩, -⟩ := Relation.TransGen.head'_iff.mp huses
  obtain ⟨-, -, c, hc, ancestor, hancestor, -⟩ := Relation.TransGen.tail'_iff.mp habove
  have hkind : c.kind = .trait := hu u (mem_values_of_find? hfound) name hname c (hkey ▸ hc)
  obtain ⟨parser, path, content, hmem⟩ := h.declared t c hc
  rw [Source.ancestors_of_trait hmem hkind] at hancestor
  cases hancestor

/-- A state with the same table and mappings is sound if what it remembers is. -/
theorem Variant.self {ix ix' : Index} (h : Variant ix ix') : Variant ix' ix' :=
  ⟨rfl, fun k c hfind => h.classes ▸ h.memory k c hfind⟩

theorem sameTable_of_nothing {ix : Index} (h : ix.flattened = {}) : SameTable ix ix :=
  ⟨rfl, by intro k c hc; rw [h] at hc; simp at hc⟩

theorem SameTable.self {ix ix' : Index} (h : SameTable ix ix') : SameTable ix' ix' :=
  ⟨rfl, fun k c hfind => h.classes ▸ h.known k c hfind⟩

theorem sound_reachable (h : Reachable ix) : Sound ix := by
  induction h with
  | new hu =>
    exact ⟨hu, sameTable_of_nothing rfl,
      by intro k c hc; simp at hc, fun _ => variant_of_nothing rfl⟩
  | @add ix file content _ ih =>
    -- adding a file forgets all flattened classes, so nothing wrong is remembered
    unfold Index.add
    generalize hdecls : ix.parser.classes file content = decls
    refine ⟨ih.unmapped, sameTable_of_nothing rfl, ?_, fun _ => variant_of_nothing rfl⟩
    intro k c hc
    rcases mem_or_find?_of_addDecls hc with hmem | hbefore
    · exact ⟨ix.parser, file, content, hdecls ▸ hmem⟩
    · exact ih.declared k c hbefore
  | own name _ ih => rw [own_of_unmapped ih.unmapped]; exact ih
  | @describe ix name _ ih =>
    -- the table stays as it is in any case; what is remembered is right if no class is used from
    -- above
    have hsame : SameTable ix (Index.describe name ix).2 :=
      (describe_keeps ih.unmapped name ix ih.table).2
    refine ⟨hsame.unmapped ih.unmapped, hsame.self, by rw [hsame.classes]; exact ih.declared, ?_⟩
    intro hapart
    rw [hsame.classes] at hapart
    exact (describe_answers ih.unmapped hapart name ix (ih.memory hapart)).2.self

/-- **What is remembered never shows.** -/
theorem describe_eq_describe_forgetful (h : Reachable ix) (hu : UsesTraits ix.classes)
    (name : String) :
    (describe name ix).1 = (describe name { ix with flattened := {} }).1 := by
  have hs := sound_reachable h
  have hapart := hs.apart hu
  have hanswer := describe_answers hs.unmapped hapart name
  rw [(hanswer ix (hs.memory hapart)).1, (hanswer _ (variant_forget ix)).1]

/-- An index with an interface that extends itself, after a class below it has been described. -/
def loopIndex : Index :=
  (describe "C" (({} : Index).add "a.php"
    "<?php trait T {} interface I {} interface A extends A, I {}
    class C implements A { use T; }")).2

/-- Of the classes met on the way up only `I` is remembered, and the self-extending interface looks
as if nothing were. -/
theorem describe_eq_describe_forgetful_loop :
    UsesTraits loopIndex.classes ∧ loopIndex.flattened.keys = ["i"]
      ∧ (describe "A" loopIndex).1 = (describe "A" { loopIndex with flattened := {} }).1 := by
  have hreach : Reachable loopIndex := .describe _ (.add _ _ (.new (by intro p hp; simp at hp)))
  have huses : UsesTraits loopIndex.classes := by decide +kernel
  exact ⟨huses, by decide +kernel, describe_eq_describe_forgetful hreach huses "A"⟩

end ClassDocs.Index

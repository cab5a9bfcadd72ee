import ClassDocs.Proofs.Coherence

/-!
# Which member of a name is seen

A flattened class is put together in three rounds: the members of traits, of the parent and of the
interfaces are put behind those that are there, unless one of the same name is there already. Here
is what this comes to for one name. The class itself comes first, then its traits, each before the
traits it uses (`Preorder`), then the parent and then the interfaces, as far as these hand a member
of the name down (`findMember_describe`).

The statement is about class graphs in which nothing reaches itself. On such a graph the stack of
the walk has no say, neither on the way through the traits (`exists_preorder`) nor on the way
up, where every ancestor is flattened as if it had been asked for by itself.

All three kinds of members are treated at once: a class has a list of members of each kind, and a
name is looked for in it up to letter case or exactly, as the kind has it.
-/

namespace ClassDocs

/-! ## Members of a kind -/

/-- The member with what all kinds of members have changed. -/
def AnyMember.relabel (mark : Member → Member) : AnyMember → AnyMember
  | .constant c => .constant { c with toMember := mark c.toMember }
  | .property p => .property { p with toMember := mark p.toMember }
  | .method m => .method { m with toMember := mark m.toMember }

@[simp] theorem AnyMember.info_relabel (mark : Member → Member) (m : AnyMember) :
    (m.relabel mark).info = mark m.info := by
  cases m <;> rfl

/-- The text that stands for all spellings of a member's name. -/
def MemberKind.fold : MemberKind → String → String
  | .method, name => Text.lower name
  | _, name => name

def AnyMember.hasName (kind : MemberKind) (name : String) (m : AnyMember) : Bool :=
  kind.fold m.info.name == kind.fold name

/-- Whether two members of a kind have the same name. -/
def AnyMember.same (kind : MemberKind) (a b : AnyMember) : Bool := b.hasName kind a.info.name

namespace ClassDecl

def membersOf (c : ClassDecl) : MemberKind → List AnyMember
  | .constant => c.constants.map .constant
  | .property => c.properties.map .property
  | .method => c.methods.map .method

theorem findMember_eq (c : ClassDecl) (name : String) (kind : MemberKind) :
    c.findMember name kind = (c.membersOf kind).find? (·.hasName kind name) := by
  cases kind <;> simp only [findMember, membersOf, List.find?_map] <;> rfl

/-- The first member of a name that is not private. -/
def handedDown (c : ClassDecl) (name : String) (kind : MemberKind) : Option AnyMember :=
  (c.membersOf kind).find? fun m => isHeritable m.info && m.hasName kind name

end ClassDecl

/-- Members of one kind can be put together as members of any kind. -/
theorem map_addUnnamed {α β : Type} {same : α → α → Bool} {same' : β → β → Bool} {f : α → β}
    {g : α → α} {g' : β → β} (hsame : ∀ a b, same' (f a) (f b) = same a b)
    (hg : ∀ a, g' (f a) = f (g a)) (members more : List α) :
    (addUnnamed same members (more.map g)).map f =
      addUnnamed same' (members.map f) ((more.map f).map g') := by
  unfold addUnnamed
  induction more generalizing members with
  | nil => rfl
  | cons a more ih =>
    have hany : (members.map f).any (same' (f (g a))) = members.any (same (g a)) := by
      rw [List.any_map]
      exact congrArg members.any (funext (hsame (g a)))
    simp only [List.map_cons, List.foldl_cons, hg, hany]
    split
    · exact ih members
    · rw [ih (members ++ [g a]), List.map_append, List.map_singleton]

/-- Of two lists put together the first one counts. -/
theorem find?_addUnnamed {kind : MemberKind} (name : String) (members more : List AnyMember) :
    (addUnnamed (AnyMember.same kind) members more).find? (·.hasName kind name) =
      (members.find? (·.hasName kind name)).or (more.find? (·.hasName kind name)) := by
  unfold addUnnamed
  induction more generalizing members with
  | nil => simp
  | cons m more ih =>
    rw [List.foldl_cons, ih]
    split
    · rename_i hany
      cases hm : m.hasName kind name with
      | false => rw [List.find?_cons_of_neg (by simp [hm])]
      | true =>
        -- a member that is left out has one of its name before it
        obtain ⟨m', hm', hsame⟩ := List.any_eq_true.mp hany
        have hname : m'.hasName kind name = true := by
          simp only [AnyMember.same, AnyMember.hasName, beq_iff_eq] at hsame hm ⊢
          rw [hsame, hm]
        obtain ⟨found, hfound⟩ :=
          Option.isSome_iff_exists.mp (List.find?_isSome.mpr ⟨m', hm', hname⟩)
        rw [hfound, Option.some_or, Option.some_or]
    · rw [List.find?_append, Option.or_assoc]
      congr 1
      cases hm : m.hasName kind name with
      | false => simp [hm]
      | true => simp [hm]

namespace ClassDecl

theorem membersOf_addMembers (c other : ClassDecl) (mark : Member → Member) (kind : MemberKind) :
    (c.addMembers other mark).membersOf kind =
      addUnnamed (AnyMember.same kind) (c.membersOf kind)
        ((other.membersOf kind).map (·.relabel mark)) := by
  cases kind with
  | constant =>
    refine map_addUnnamed ?_ ?_ c.constants other.constants
    · exact fun _ _ => rfl
    · exact fun _ => rfl
  | property =>
    refine map_addUnnamed ?_ ?_ c.properties other.properties
    · exact fun _ _ => rfl
    · exact fun _ => rfl
  | method =>
    refine map_addUnnamed ?_ ?_ c.methods other.methods
    · exact fun _ _ => rfl
    · exact fun _ => rfl

variable {name : String} {kind : MemberKind}

/-- A class that takes over members has its own first. -/
theorem findMember_addMembers (c other : ClassDecl) {mark : Member → Member}
    (hmark : ∀ m, (mark m).name = m.name) :
    (c.addMembers other mark).findMember name kind =
      (c.findMember name kind).or ((other.findMember name kind).map (·.relabel mark)) := by
  have hname : ∀ m : AnyMember, (m.relabel mark).hasName kind name = m.hasName kind name := by
    intro m
    simp only [AnyMember.hasName, AnyMember.info_relabel, hmark]
  rw [findMember_eq, findMember_eq, findMember_eq, membersOf_addMembers, find?_addUnnamed,
    List.find?_map]
  have hcomp : ((·.hasName kind name) ∘ (·.relabel mark) : AnyMember → Bool) =
      (·.hasName kind name) := funext hname
  rw [hcomp]

theorem findMember_addTrait (c trait : ClassDecl) (via : String) :
    (c.addTrait trait via).findMember name kind =
      (c.findMember name kind).or
        ((trait.findMember name kind).map (·.relabel (adopted c.name via))) :=
  findMember_addMembers c trait fun _ => rfl

theorem membersOf_heritage (c : ClassDecl) (withProperties : Bool) (kind : MemberKind) :
    (c.heritage withProperties).membersOf kind =
      if kind = .property ∧
        withProperties = false then [] else (c.membersOf kind).filter (isHeritable ·.info) := by
  cases kind with
  | constant =>
    rw [if_neg (by simp), membersOf, membersOf, List.filter_map]
    rfl
  | property =>
    cases withProperties with
    | false => rfl
    | true =>
      rw [if_neg (by simp), membersOf, membersOf, List.filter_map]
      rfl
  | method =>
    rw [if_neg (by simp), membersOf, membersOf, List.filter_map]
    rfl

theorem findMember_inherit (c ancestor : ClassDecl) (withProperties : Bool) :
    (c.inherit ancestor withProperties).findMember name kind =
      (c.findMember name kind).or (if kind = .property ∧ withProperties = false then none
        else (ancestor.handedDown name kind).map (·.relabel inherited)) := by
  have hmark : ∀ m : Member, (inherited m).name = m.name := fun _ => rfl
  rw [inherit, findMember_addMembers c _ hmark, findMember_eq (ancestor.heritage withProperties),
    membersOf_heritage]
  split
  · rfl
  · rw [List.find?_filter, handedDown]
    simp only [Bool.decide_and, Bool.decide_eq_true]

/-- The members of traits taken in turn. -/
theorem findMember_foldl_addTrait (walk : List (String × ClassDecl)) (c : ClassDecl) :
    (walk.foldl (fun c e => c.addTrait e.2 e.1) c).findMember name kind =
      (c.findMember name kind).or
        (walk.findSome? fun e => (e.2.findMember name kind).map
          (·.relabel (adopted c.name e.1))) := by
  induction walk generalizing c with
  | nil => simp
  | cons e walk ih =>
    have hname : (c.addTrait e.2 e.1).name = c.name := rfl
    rw [List.foldl_cons, ih, hname, findMember_addTrait, Option.or_assoc, List.findSome?_cons]
    congr 1
    cases (e.2.findMember name kind).map (·.relabel (adopted c.name e.1)) <;> rfl

end ClassDecl

/-! ## Members as declared -/

namespace Source

/-- All members read so far are members of their owner, as written. -/
structure Members.Of (o : Owner) (ms : Members) : Prop where
  constants : ∀ m ∈ ms.constants, ∃ name modifiers comment, m.toMember =
    o.member name modifiers comment
  properties : ∀ m ∈ ms.properties, ∃ name modifiers comment, m.toMember =
    o.member name modifiers comment
  methods : ∀ m ∈ ms.methods, ∃ name modifiers comment, m.toMember =
    o.member name modifiers comment

theorem Members.Of.addMember {o : Owner} {ms : Members} (h : ms.Of o) (inInterface : Bool)
    (node : MemberNode) :
    (o.addMember inInterface ms node).Of o := by
  cases node with
  | constants start words hint items =>
    refine ⟨List.forall_mem_append.mpr ⟨h.constants, ?_⟩, h.properties, h.methods⟩
    intro m hm
    obtain ⟨item, -, rfl⟩ := List.mem_map.mp hm
    exact ⟨_, _, _, rfl⟩
  | properties start words hint items =>
    refine ⟨h.constants, List.forall_mem_append.mpr ⟨h.properties, ?_⟩, h.methods⟩
    intro m hm
    obtain ⟨item, -, rfl⟩ := List.mem_map.mp hm
    exact ⟨_, _, _, rfl⟩
  | method start words name parameters result =>
    refine ⟨h.constants, List.forall_mem_append.mpr ⟨h.properties, ?_⟩,
      List.forall_mem_append.mpr ⟨h.methods, List.forall_mem_singleton.mpr ⟨_, _, _, rfl⟩⟩⟩
    intro m hm
    split at hm
    · obtain ⟨p, -, rfl⟩ := List.mem_map.mp hm
      exact ⟨_, _, _, rfl⟩
    · cases hm
  | enumCase item =>
    exact ⟨List.forall_mem_append.mpr ⟨h.constants, List.forall_mem_singleton.mpr ⟨_, _, _, rfl⟩⟩,
      h.properties, h.methods⟩
  | traitUse names => exact ⟨h.constants, h.properties, h.methods⟩

/-- **The members written in a file** are those of the class they stand in. -/
theorem member_of_mem_classes {parser : Parser} {path content : String} {c : ClassDecl}
    (h : c ∈ parser.classes path content)
    {kind : MemberKind} {m : AnyMember} (hm : m ∈ c.membersOf kind) :
    ∃ (o : Owner) (name : String) (modifiers : Modifiers) (comment : Option String),
      o.className = c.name ∧ m.info = o.member name modifiers comment := by
  obtain ⟨file, scope, node, rfl, -⟩ := mem_classes h
  have hfold : ∀ (nodes : List MemberNode) (o : Owner) (b : Bool) (ms : Members), ms.Of o →
      (nodes.foldl (o.addMember b) ms).Of o := by
    intro nodes o b
    induction nodes with
    | nil => intro ms hms; exact hms
    | cons node nodes ih => intro ms hms; exact ih _ (hms.addMember b node)
  have hms :=
    hfold node.members ⟨qualify scope node.name, file, scope⟩ (node.word == .interface) {}
    ⟨by simp, by simp, by simp⟩
  refine ⟨⟨qualify scope node.name, file, scope⟩, ?_⟩
  cases kind with
  | constant =>
    obtain ⟨m, hmem, rfl⟩ := List.mem_map.mp hm
    obtain ⟨name, modifiers, comment, hmember⟩ := hms.constants m hmem
    exact ⟨name, modifiers, comment, rfl, hmember⟩
  | property =>
    obtain ⟨m, hmem, rfl⟩ := List.mem_map.mp hm
    obtain ⟨name, modifiers, comment, hmember⟩ := hms.properties m hmem
    exact ⟨name, modifiers, comment, rfl, hmember⟩
  | method =>
    obtain ⟨m, hmem, rfl⟩ := List.mem_map.mp hm
    obtain ⟨name, modifiers, comment, hmember⟩ := hms.methods m hmem
    exact ⟨name, modifiers, comment, rfl, hmember⟩

theorem origin_of_mem_classes {parser : Parser} {path content : String} {c : ClassDecl}
    (h : c ∈ parser.classes path content)
    {kind : MemberKind} {m : AnyMember} (hm : m ∈ c.membersOf kind) : m.info.origin = .own := by
  obtain ⟨o, name, modifiers, comment, -, hmember⟩ := member_of_mem_classes h hm
  rw [hmember]
  rfl

theorem declaringClass_of_mem_classes {parser : Parser} {path content : String} {c : ClassDecl}
    (h : c ∈ parser.classes path content)
    {kind : MemberKind} {m : AnyMember} (hm : m ∈ c.membersOf kind) :
    m.info.declaringClass = c.name := by
  obtain ⟨o, name, modifiers, comment, hclass, hmember⟩ := member_of_mem_classes h hm
  rw [hmember, ← hclass]
  rfl

end Source

/-! ## The class graph -/

namespace Index

variable {classes : Table ClassDecl}

/-- `Names classes a k`: the class of key `k` names `a` as its parent, as an interface or as a
trait. -/
def Names (classes : Table ClassDecl) (a k : String) : Prop := Above classes a k ∨ Uses classes a k

/-- Nothing reaches itself. -/
def Acyclic (classes : Table ClassDecl) : Prop := ∀ k, ¬ Relation.TransGen (Names classes) k k

/-- Known traits used one by another below the class of key `k`, as many as `n`. -/
inductive UseChain (classes : Table ClassDecl) : Nat → String → Prop where
  | nil (k : String) : UseChain classes 0 k
  | cons {n : Nat} {t k : String} :
      Uses classes t k → classes.contains t = true → UseChain classes n t →
      UseChain classes (n + 1) k

theorem names_of_above {a k : String} (h : Relation.TransGen (Above classes) a k) :
    Relation.TransGen (Names classes) a k := Relation.TransGen.mono (fun _ _ => Or.inl) _ _ h

theorem names_of_uses {t k : String} (h : Relation.TransGen (Uses classes) t k) :
    Relation.TransGen (Names classes) t k := Relation.TransGen.mono (fun _ _ => Or.inr) _ _ h

theorem Acyclic.apart (h : Acyclic classes) : Apart classes :=
  fun t _ huses habove => h t ((names_of_uses huses).trans (names_of_above habove))

theorem mem_entries_of_find? {k : String} {c : ClassDecl} (h : classes.find? k = some c) :
    (k, c) ∈ classes.entries := by
  obtain ⟨front, back, hentries, -⟩ := List.lookup_eq_some_iff.mp h
  rw [hentries]
  simp

/-- A table whose classes name only classes of a lower rank. -/
def Ranked (rank : String → Nat) (classes : Table ClassDecl) : Prop :=
  ∀ e ∈ classes.entries, ∀ name ∈ e.2.traits ++ e.2.ancestors.map Prod.fst,
    rank (key name) < rank e.1

instance (rank : String → Nat) (classes : Table ClassDecl) : Decidable (Ranked rank classes) :=
  inferInstanceAs
    (Decidable (∀ e ∈ classes.entries, ∀ name ∈ e.2.traits ++ e.2.ancestors.map Prod.fst, _))

theorem Ranked.lt {rank : String → Nat} (h : Ranked rank classes) {a k : String}
    (hnames : Names classes a k) :
    rank a < rank k := by
  rcases hnames with ⟨c, hc, ancestor, hmem, rfl⟩ | ⟨c, hc, name, hmem, rfl⟩
  · exact h _ (mem_entries_of_find? hc) _ (List.mem_append_right _ (List.mem_map_of_mem hmem))
  · exact h _ (mem_entries_of_find? hc) _ (List.mem_append_left _ hmem)

theorem Ranked.acyclic {rank : String → Nat} (h : Ranked rank classes) : Acyclic classes := by
  have hlt : ∀ {a k : String}, Relation.TransGen (Names classes) a k → rank a < rank k := by
    intro a k hpath
    induction hpath with
    | single hnames => exact h.lt hnames
    | tail _ hnames ih => exact Nat.lt_trans ih (h.lt hnames)
  exact fun k hcycle => Nat.lt_irrefl _ (hlt hcycle)

theorem Ranked.le_of_useChain {rank : String → Nat} (h : Ranked rank classes)
    {n : Nat} {k : String} (hchain : UseChain classes n k) : n ≤ rank k := by
  induction hchain with
  | nil k => exact Nat.zero_le _
  | cons huses _ _ ih =>
    have hlt := h.lt (Or.inr huses)
    omega

/-- A walk up does not run into its stack. -/
theorem Acyclic.climb_snd (h : Acyclic classes) (bound : Nat) :
    ∀ {stack : List String} {k : String},
    Trail (Above classes) classes bound stack k → (climb classes bound stack k).2 = false := by
  induction bound with
  | zero => intro stack k _; rfl
  | succ bound ih =>
    intro stack k htrail
    cases hc : classes.find? k with
    | none => rw [climb_of_unknown hc]
    | some c =>
      have hk : k ∉ stack := fun hmem => h k (names_of_above (htrail.below k hmem))
      rw [climb_of_new hc hk, List.any_map, List.any_eq_false]
      intro a ha
      have hstep := htrail.step (contains_of_find? hc) hk ⟨c, hc, a, ha, rfl⟩
      simpa using ih hstep

/-- So every class is flattened as if it had been asked for by itself. -/
theorem Acyclic.climb_eq (h : Acyclic classes) {b b' : Nat} {s s' : List String} {k : String}
    (htrail : Trail (Above classes) classes b s k)
    (htrail' : Trail (Above classes) classes b' s' k) :
    climb classes b s k = climb classes b' s' k :=
  (climb_eq_of_acc h.apart (acc_of_climb htrail (h.climb_snd b htrail)) htrail htrail').1

/-! ## The walk through the traits -/

/--
`Preorder classes via names walk`: the traits of these names with those they use, each before the
ones it uses. With each trait stands the name it is said to come from: `via`, or the name of the
trait that the walk started with.
-/
inductive Preorder (classes : Table ClassDecl) :
    Option String → List String → List (String × ClassDecl) → Prop where
  | nil (via : Option String) : Preorder classes via [] []
  | unknown {via : Option String} {name : String} {names : List String}
      {walk : List (String × ClassDecl)} :
      classes.find? (key name) = none → Preorder classes via names walk →
        Preorder classes via (name :: names) walk
  | known {via : Option String} {name : String} {names : List String} {trait : ClassDecl}
      {inner rest : List (String × ClassDecl)} : classes.find? (key name) = some trait →
      Preorder classes (some (via.getD trait.name)) trait.traits inner →
        Preorder classes via names rest →
      Preorder classes via (name :: names) ((via.getD trait.name, trait) :: inner ++ rest)

theorem adoptAll_nil (depth : Nat) (stack : List String) (via : Option String) (c : ClassDecl) :
    adoptAll classes depth stack via [] c = c := by
  cases depth <;> rfl

theorem adoptAll_unknown {name : String} (h : classes.find? (key name) = none) (depth : Nat)
    (stack : List String) (via : Option String) (names : List String) (c : ClassDecl) :
    adoptAll classes depth stack via (name :: names) c =
      adoptAll classes depth stack via names c := by
  cases depth with
  | zero => rfl
  | succ depth => simp only [adoptAll, List.foldl_cons, h]

theorem adoptAll_known {name : String} {trait : ClassDecl}
    (h : classes.find? (key name) = some trait) (depth : Nat) {stack : List String}
    (hnew : key name ∉ stack) (via : Option String) (names : List String) (c : ClassDecl) :
    adoptAll classes (depth + 1) stack via (name :: names) c =
      adoptAll classes (depth + 1) stack via names
        (adoptAll classes depth (key name :: stack) (some (via.getD trait.name)) trait.traits
          (c.addTrait trait (via.getD trait.name))) := by
  have hcon : stack.contains (key name) = false := by simpa using hnew
  simp only [adoptAll, List.foldl_cons, h, hcon, Bool.false_eq_true, if_false]

/-- The traits used by the class of key `k` are walked through in this order, if the depth allows
for it. -/
theorem exists_preorder (h : Acyclic classes) (depth : Nat) : ∀ {k : String} {stack : List String},
    (∀ s ∈ stack, Relation.ReflTransGen (Names classes) k s) → ¬ UseChain classes (depth + 1) k →
    ∀ (via : Option String) (names : List String), (∀ name ∈ names, Uses classes (key name) k) →
    ∃ walk, Preorder classes via names walk ∧ ∀ c,
      adoptAll classes depth stack via names c = walk.foldl (fun c e => c.addTrait e.2 e.1) c := by
  induction depth using Nat.strongRecOn with
  | ind depth ihdepth =>
    intro k stack hstack hchain via names hnames
    induction names with
    | nil => exact ⟨[], .nil via, fun c => adoptAll_nil depth stack via c⟩
    | cons name names ih =>
      rw [List.forall_mem_cons] at hnames
      obtain ⟨hname, hnames⟩ := hnames
      obtain ⟨rest, hrest, hfold⟩ := ih hnames
      cases hfind : classes.find? (key name) with
      | none =>
        exact ⟨rest, .unknown hfind hrest,
          fun c => (adoptAll_unknown hfind _ _ _ _ c).trans (hfold c)⟩
      | some trait =>
        cases depth with
        | zero =>
          -- a known trait is a chain already
          exact absurd (.cons hname (contains_of_find? hfind) (.nil _)) hchain
        | succ depth =>
          have hnew : key name ∉ stack := by
            intro hmem
            exact h (key name) (.trans_left (.single (.inr hname)) (hstack _ hmem))
          have hstack' : ∀ s ∈ key name :: stack,
              Relation.ReflTransGen (Names classes) (key name) s :=
            List.forall_mem_cons.mpr ⟨.refl, fun s hs => .head (.inr hname) (hstack s hs)⟩
          have hchain' : ¬ UseChain classes (depth + 1) (key name) :=
            fun hdeep => hchain (.cons hname (contains_of_find? hfind) hdeep)
          obtain ⟨inner, hinner, hfold'⟩ := ihdepth depth (Nat.lt_succ_self depth) hstack' hchain'
            (some (via.getD trait.name)) trait.traits fun name' hname' =>
              ⟨trait, hfind, name', hname', rfl⟩
          refine ⟨_, .known hfind hinner hrest, fun c => ?_⟩
          rw [adoptAll_known hfind depth hnew, hfold', hfold, List.cons_append, List.foldl_cons,
            List.foldl_append]

/-! ## The way up -/

/-- The member that a class inherits from an ancestor, if there is one. -/
def inheritedFrom (ix : Index) (ancestor name : String) (kind : MemberKind) : Option AnyMember :=
  (describe ancestor ix).1.toOption.bind fun a =>
    (a.handedDown name kind).map (·.relabel ClassDecl.inherited)

variable {name : String} {kind : MemberKind}

/-- The members of ancestors taken in turn. -/
theorem findMember_foldl_inheritFound (above : List ((Option ClassDecl × Bool) × Bool))
    (c : ClassDecl) :
    (above.foldl (fun m r => inheritFound m r.1.1 r.2) c).findMember name kind =
      (c.findMember name kind).or (above.findSome? fun r => r.1.1.bind fun a =>
        if kind = .property ∧ r.2 = false then none
        else (a.handedDown name kind).map (·.relabel ClassDecl.inherited)) := by
  induction above generalizing c with
  | nil => simp
  | cons r above ih =>
    rw [List.foldl_cons, ih, List.findSome?_cons]
    obtain ⟨⟨found, cyclic⟩, withProperties⟩ := r
    cases found with
    | none => rfl
    | some a =>
      rw [inheritFound, ClassDecl.findMember_inherit, Option.or_assoc]
      congr 1
      dsimp only [Option.bind_some]
      cases (if kind = .property ∧ withProperties = false then none
        else (a.handedDown name kind).map (·.relabel ClassDecl.inherited)) <;> rfl

/-- What a class inherits: from its parent, else from the first interface that has some, but no
properties there. -/
theorem findSome?_ancestors (c : ClassDecl) (kind : MemberKind)
    (pick : String → Option AnyMember) :
    (c.ancestors.findSome? fun a => if kind = .property ∧ a.2 = false then none else pick a.1) =
      (c.parent.bind pick).or
        (if kind = .property then none else c.interfaces.findSome? pick) := by
  rw [ClassDecl.ancestors, List.findSome?_append, List.findSome?_map, List.findSome?_map]
  congr 1
  · cases c.parent with
    | none => rfl
    | some p => simp
  · by_cases hkind : kind = .property
    · rw [if_pos hkind, List.findSome?_eq_none_iff]
      intro i _
      simp [hkind]
    · simp only [hkind, false_and, if_false]
      rfl

/--
The member of a name that is seen on a class: its own; else that of the first trait that has one,
in the order of the walk; else the first that its parent hands down; else the first that one of its
interfaces does, unless it is a property. What is handed down is the first member of that name that
is not private.
-/
theorem findMember_describe {ix : Index} (h : Reachable ix) (hacyclic : Acyclic ix.classes)
    {className : String} (hdepth : ¬ UseChain ix.classes (traitDepth + 1) (key className))
    {c : ClassDecl} (hown : (own className ix).1 = some c) :
    ∃ d walk, (describe className ix).1 = .ok d ∧ Preorder ix.classes none c.traits walk ∧
      ∀ (name : String) (kind : MemberKind),
        (∀ m, c.findMember name kind = some m → m.info.origin = .own) ∧
        d.findMember name kind =
          ((c.findMember name kind).or
            ((walk.findSome? fun e => (e.2.findMember name kind).map
              (·.relabel (ClassDecl.adopted c.name e.1))).or
              ((c.parent.bind fun p => inheritedFrom ix p name kind).or
                (if kind = .property then none
                  else c.interfaces.findSome? fun i => inheritedFrom ix i name kind)))) := by
  have hs := sound_reachable h
  have hapart := hacyclic.apart
  have hself := hs.memory hapart
  rw [own_of_unmapped hs.unmapped] at hown
  have hdescribe : ∀ name, (describe name ix).1 =
      described name (climb ix.classes ix.bound [] (key name)).1 :=
    fun name => (describe_answers hs.unmapped hapart name ix hself).1
  have hroom : ix.classes.size < ix.bound := by unfold Index.bound; omega
  obtain ⟨n, hn⟩ : ∃ n, ix.bound = n + 1 := ⟨_, rfl⟩
  have hstack : ∀ s ∈ [key className],
      Relation.ReflTransGen (Names ix.classes) (key className) s :=
    List.forall_mem_singleton.mpr .refl
  obtain ⟨walk, hwalk, hfold⟩ := exists_preorder hacyclic traitDepth hstack hdepth none c.traits
    fun t ht => ⟨c, hown, t, ht, rfl⟩
  have hclimb := climb_of_new hown (List.not_mem_nil (a := key className)) n
  rw [← hn] at hclimb
  refine ⟨_, walk, by rw [hdescribe, hclimb]; rfl, hwalk, fun name kind => ⟨?_, ?_⟩⟩
  · intro m hm
    obtain ⟨parser, path, content, hmem⟩ := hs.declared _ _ hown
    rw [ClassDecl.findMember_eq] at hm
    exact Source.origin_of_mem_classes hmem (List.mem_of_find?_eq_some hm)
  · rw [findMember_foldl_inheritFound, hfold, ClassDecl.findMember_foldl_addTrait, Option.or_assoc]
    congr 2
    rw [List.findSome?_map, ← findSome?_ancestors, ← List.head?_filterMap, ← List.head?_filterMap]
    refine congrArg List.head? (List.filterMap_congr fun a ha => ?_)
    -- every ancestor is flattened as if it had been asked for by itself
    have hstep := (Trail.start (r := Above ix.classes) (hn ▸ hroom) (key className)).step
      (contains_of_find? hown) List.not_mem_nil ⟨c, hown, a, ha, rfl⟩
    have hsame := hacyclic.climb_eq hstep (Trail.start hroom (key a.1))
    rw [inheritedFrom, hdescribe, ← hsame]
    dsimp only [Function.comp]
    cases (climb ix.classes n [key className] (key a.1)).1 with
    | none => simp [described, Except.toOption]
    | some d => rfl

/-- A class with a trait that uses another, a parent and an interface. -/
theorem findMember_describe_nested :
    let ix := ({} : Index).add "a.php"
      "<?php trait U { function u() {} } trait T { use U; } interface I { const X = 1; }
      class P { private function p() {} protected $q; } class C extends P implements I { use T; }"
    Acyclic ix.classes ∧ ¬ UseChain ix.classes (traitDepth + 1) (key "C") ∧
      ∃ c, (own "C" ix).1 = some c ∧
      ∃ d walk, (describe "C" ix).1 = .ok d ∧ Preorder ix.classes none c.traits walk ∧
        ∀ (name : String) (kind : MemberKind),
          (∀ m, c.findMember name kind = some m → m.info.origin = .own) ∧
          d.findMember name kind =
            ((c.findMember name kind).or
              ((walk.findSome? fun e => (e.2.findMember name kind).map
                (·.relabel (ClassDecl.adopted c.name e.1))).or
                ((c.parent.bind fun p => inheritedFrom ix p name kind).or
                  (if kind = .property then none
                    else c.interfaces.findSome? fun i => inheritedFrom ix i name kind)))) := by
  intro ix
  have hreach : Reachable ix := .add _ _ (.new (by intro p hp; simp at hp))
  -- the source is read once for both
  obtain ⟨hranked, hknown⟩ : Ranked (["u", "t", "i", "p", "c"].idxOf ·) ix.classes ∧
      (own "C" ix).1.isSome = true := by decide +kernel
  have hdepth : ¬ UseChain ix.classes (traitDepth + 1) (key "C") :=
    fun hchain => absurd (hranked.le_of_useChain hchain) (by decide)
  obtain ⟨c, hc⟩ := Option.isSome_iff_exists.mp hknown
  exact ⟨hranked.acyclic, hdepth, c, hc, findMember_describe hreach hranked.acyclic hdepth hc⟩

/-- A parent that declares a method twice hands the second one down if the first one is private. -/
theorem findMember_describe_twice :
    let ix := ({} : Index).add "a.php"
      "<?php class P { private function m() {} public function m() {} } class C extends P {}"
    let seen := fun className =>
      ((describe className ix).1.toOption.bind (·.findMember "m" .method)).map fun m =>
        (m.info.modifiers.visibility, m.info.origin)
    seen "P" = some (.priv, .own) ∧ seen "C" = some (.pub, .inherited) := by
  decide +kernel

end Index

end ClassDocs

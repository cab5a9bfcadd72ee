import ClassDocs.Proofs.BatchOrder
import ClassDocs.Proofs.Precedence

/-!
# Where the members of a flattened class come from

A flattened class is its declaration with further members behind its own ones. Each of these was
written in the body of some class, and nothing but its origin and its declaring class has been
changed on the way: either a trait of the class led to it (`TraitMember`), or it was handed down by
another class above (`InheritedMember`).

The class graph may have cycles, along which the members of a class come back to it. None of them
gets in: as long as a class is being flattened it hands down what it declares itself, and these
names are taken already. This is what the walk has to remember of its stack, and `Carried` is the
invariant that says so: from a class on the stack come its own members only, none of its traits.
-/

namespace ClassDocs

/-! ## Putting members together -/

/-- What is put behind some members: new names, and each of them once. -/
theorem addUnnamed_eq_append {α : Type} (same : α → α → Bool) (members more : List α) :
    ∃ extra, addUnnamed same members more = members ++ extra ∧ extra ⊆ more ∧
      (∀ e ∈ extra, ∀ m ∈ members, same e m = false) ∧ extra.Pairwise fun a b =>
        same b a = false := by
  unfold addUnnamed
  induction more generalizing members with
  | nil => exact ⟨[], by simp, by simp, by simp, List.Pairwise.nil⟩
  | cons a more ih =>
    rw [List.foldl_cons]
    split
    · obtain ⟨extra, heq, hsub, hnew, hpair⟩ := ih members
      exact ⟨extra, heq, List.subset_cons_of_subset a hsub, hnew, hpair⟩
    · rename_i hany
      obtain ⟨extra, heq, hsub, hnew, hpair⟩ := ih (members ++ [a])
      refine ⟨a :: extra, by rw [heq]; simp, List.cons_subset_cons a hsub, ?_, ?_⟩
      · refine List.forall_mem_cons.mpr
          ⟨fun m hm => ?_, fun e he m hm => hnew e he m (List.mem_append_left _ hm)⟩
        simp only [List.any_eq_true, not_exists, not_and, Bool.not_eq_true] at hany
        exact hany m hm
      · exact List.pairwise_cons.mpr ⟨fun e he => hnew e he a (by simp), hpair⟩

@[simp] theorem AnyMember.relabel_relabel (f g : Member → Member) (m : AnyMember) :
    (m.relabel f).relabel g = m.relabel (g ∘ f) := by
  cases m <;> rfl

namespace ClassDecl

variable {P Q : MemberKind → AnyMember → Prop} {c m m' : ClassDecl}

/-- `m` has the members of `c`, and behind them further ones in `P`. -/
def Grown (P : MemberKind → AnyMember → Prop) (c m : ClassDecl) : Prop :=
  ∀ kind, ∃ further, m.membersOf kind = c.membersOf kind ++ further ∧ ∀ x ∈ further, P kind x

theorem Grown.refl (c : ClassDecl) : Grown P c c := fun _ => ⟨[], by simp, by simp⟩

theorem Grown.trans (h : Grown P c m) (h' : Grown P m m') : Grown P c m' := by
  intro kind
  obtain ⟨further, heq, hP⟩ := h kind
  obtain ⟨further', heq', hP'⟩ := h' kind
  exact ⟨further ++ further',
    by rw [heq', heq, List.append_assoc], List.forall_mem_append.mpr ⟨hP, hP'⟩⟩

theorem Grown.mono (h : Grown P c m) (hPQ : ∀ kind x, P kind x → Q kind x) : Grown Q c m := by
  intro kind
  obtain ⟨further, heq, hP⟩ := h kind
  exact ⟨further, heq, fun x hx => hPQ kind x (hP x hx)⟩

/-- The members in front stay. -/
theorem Grown.mem (h : Grown P c m) {kind : MemberKind} {x : AnyMember}
    (hx : x ∈ c.membersOf kind) :
    x ∈ m.membersOf kind := by
  obtain ⟨further, heq, -⟩ := h kind
  rw [heq]
  exact List.mem_append_left _ hx

/-- A member is one of those in front, or in `P`. -/
theorem Grown.cases (h : Grown P c m) {kind : MemberKind} {x : AnyMember}
    (hx : x ∈ m.membersOf kind) :
    x ∈ c.membersOf kind ∨ P kind x := by
  obtain ⟨further, heq, hP⟩ := h kind
  rw [heq, List.mem_append] at hx
  exact hx.imp_right (hP x)

theorem grown_addMembers (c other : ClassDecl) (mark : Member → Member) :
    Grown (fun kind x => (∃ y ∈ other.membersOf kind, x = y.relabel mark) ∧
      ∀ m ∈ c.membersOf kind, AnyMember.same kind x m = false) c (c.addMembers other mark) := by
  intro kind
  rw [membersOf_addMembers]
  obtain ⟨extra, heq, hsub, hnew, -⟩ :=
    addUnnamed_eq_append (AnyMember.same kind) (c.membersOf kind)
    ((other.membersOf kind).map (·.relabel mark))
  refine ⟨extra, heq, fun x hx => ⟨?_, hnew x hx⟩⟩
  obtain ⟨y, hy, hxy⟩ := List.mem_map.mp (hsub hx)
  exact ⟨y, hy, hxy.symm⟩

/-- What a class inherits from a flattened ancestor: its members that are not private, if the name
is new. -/
theorem grown_inherit (c ancestor : ClassDecl) (withProperties : Bool) :
    Grown (fun kind x => (kind = .property → withProperties = true) ∧
      (∃ y ∈ ancestor.membersOf kind, isHeritable y.info = true ∧ x = y.relabel inherited) ∧
      ∀ m ∈ c.membersOf kind, AnyMember.same kind x m = false) c
        (c.inherit ancestor withProperties) := by
  refine (grown_addMembers c (ancestor.heritage withProperties) inherited).mono ?_
  rintro kind x ⟨⟨y, hy, rfl⟩, hnew⟩
  rw [membersOf_heritage] at hy
  split at hy
  · cases hy
  · rename_i hkind
    obtain ⟨hmem, hheritable⟩ := List.mem_filter.mp hy
    refine ⟨fun hproperty => ?_, ⟨y, hmem, hheritable, rfl⟩, hnew⟩
    cases withProperties with
    | true => rfl
    | false => exact absurd ⟨hproperty, rfl⟩ hkind

/-- A parent is followed with its properties, an interface without them. -/
theorem mem_ancestors {a : String × Bool} (h : a ∈ c.ancestors) :
    (a.2 = true ∧ c.parent = some a.1) ∨ (a.2 = false ∧ a.1 ∈ c.interfaces) := by
  rcases List.mem_append.mp h with h | h
  · obtain ⟨name, hname, rfl⟩ := List.mem_map.mp h
    exact Or.inl ⟨rfl, Option.mem_toList.mp hname⟩
  · obtain ⟨name, hname, rfl⟩ := List.mem_map.mp h
    exact Or.inr ⟨rfl, hname⟩

end ClassDecl

namespace Index

open ClassDecl

variable {classes : Table ClassDecl}

/-! ## Members of traits -/

/-- Every class stands once, under the key of its qualified name, and its members are written in
it. -/
structure Filed (classes : Table ClassDecl) : Prop where
  nodup : classes.keys.Nodup
  key_name : ∀ k c, classes.find? k = some c → key c.name = k
  qualified : ∀ k c, classes.find? k = some c → Source.Qualified c.name
  origin : ∀ k c, classes.find? k = some c → ∀ kind, ∀ m ∈ c.membersOf kind, m.info.origin = .own
  declaring : ∀ k c, classes.find? k = some c → ∀ kind, ∀ m ∈ c.membersOf kind,
    m.info.declaringClass = c.name

/--
A member that the class `c` takes from its traits: an own member of a trait that it names, or of
one reached from there by the use of traits. It is said to be declared in `c` and to come from the
trait that `c` names.
-/
def TraitMember (classes : Table ClassDecl) (c : ClassDecl) (kind : MemberKind) (x : AnyMember) :
    Prop :=
  ∃ name ∈ c.traits, ∃ t, classes.find? (key name) = some t ∧ key t.name = key name ∧
    ∃ k own, Relation.ReflTransGen (Uses classes) k (key name) ∧ classes.find? k = some own ∧
      ∃ m ∈ own.membersOf kind, x = m.relabel (adopted c.name t.name)

theorem Headed.refl (c : ClassDecl) : Headed c c := rfl

theorem Headed.name {c m : ClassDecl} (h : Headed c m) : m.name = c.name := by rw [h]

theorem grown_foldl {α : Type} {P : MemberKind → AnyMember → Prop} {c : ClassDecl}
    {f : ClassDecl → α → ClassDecl} (l : List α)
    (h : ∀ a ∈ l, ∀ m, Headed c m → Headed c (f m a) ∧ Grown P m (f m a)) :
    ∀ m, Headed c m → Grown P m (l.foldl f m) := by
  induction l with
  | nil => intro m _; exact Grown.refl m
  | cons a l ih =>
    obtain ⟨ha, hl⟩ := List.forall_mem_cons.mp h
    intro m hm
    obtain ⟨hhead, hgrown⟩ := ha m hm
    exact hgrown.trans (ih hl _ hhead)

/-- The walk through some traits takes members from there only. -/
theorem grown_adoptAll (hf : Filed classes) {c : ClassDecl} (depth : Nat) :
    ∀ (stack : List String) (via : Option String) (names : List String) (m : ClassDecl),
      Headed c m →
      Grown
        (fun kind x => ∃ name ∈ names, ∃ t, classes.find? (key name) = some t ∧
          key t.name = key name ∧
          ∃ k own, Relation.ReflTransGen (Uses classes) k (key name) ∧ classes.find? k = some own ∧
            ∃ y ∈ own.membersOf kind, x = y.relabel (adopted c.name (via.getD t.name)))
        m (adoptAll classes depth stack via names m) := by
  induction depth with
  | zero => intro stack via names m _; exact Grown.refl m
  | succ depth ih =>
    intro stack via names
    simp only [adoptAll]
    refine grown_foldl names fun name hname m hm => ?_
    split
    · exact ⟨hm, Grown.refl m⟩
    rename_i t ht
    split
    · exact ⟨hm, Grown.refl m⟩
    have hkey := hf.key_name _ t ht
    have hadd : Headed c (m.addTrait t (via.getD t.name)) := hm.addMembers _ _
    refine ⟨adoptAll_headed _ _ _ _ _ hadd, Grown.trans ?_ ((ih _ _ _ _ hadd).mono ?_)⟩
    · refine (grown_addMembers m t _).mono ?_
      rintro kind x ⟨⟨y, hy, rfl⟩, -⟩
      exact ⟨name, hname, t, ht, hkey, key name, t, .refl, ht, y, hy, by rw [hm.name]⟩
    · -- what a trait of the trait leads to is reached from the trait
      rintro kind x ⟨name', hname', t', -, -, k, own, hk, hown, y, hy, rfl⟩
      exact ⟨name, hname, t, ht, hkey, k, own, hk.tail ⟨t, ht, name', hname', rfl⟩,
        hown, y, hy, rfl⟩

/-! ## Members of ancestors -/

/-- `HeirOf classes kind a k`: the class of key `k` inherits members of a kind from the class of
key `a`, which is its parent or, unless it is about properties, one of its interfaces. -/
def HeirOf (classes : Table ClassDecl) (kind : MemberKind) (a k : String) : Prop :=
  ∃ c, classes.find? k = some c ∧
    ((∃ p, c.parent = some p ∧ key p = a) ∨ (kind ≠ .property ∧ ∃ i ∈ c.interfaces, key i = a))

theorem above_of_heirOf {kind : MemberKind} {a k : String} (h : HeirOf classes kind a k) :
    Above classes a k := by
  obtain ⟨c, hc, hcases⟩ := h
  refine ⟨c, hc, ?_⟩
  rcases hcases with ⟨p, hp, rfl⟩ | ⟨-, i, hi, rfl⟩
  · exact ⟨(p, true), by simp [ClassDecl.ancestors, hp], rfl⟩
  · exact ⟨(i, false), by simp [ClassDecl.ancestors, hi], rfl⟩

theorem heirOf_of_mem {k : String} {c : ClassDecl} (hc : classes.find? k = some c)
    {a : String × Bool} (ha : a ∈ c.ancestors) {kind : MemberKind}
    (hkind : kind = .property → a.2 = true) :
    HeirOf classes kind (key a.1) k := by
  refine ⟨c, hc, ?_⟩
  rcases mem_ancestors ha with ⟨-, hparent⟩ | ⟨hflag, hinterface⟩
  · exact Or.inl ⟨a.1, hparent, rfl⟩
  · refine Or.inr ⟨fun hproperty => ?_, a.1, hinterface, rfl⟩
    rw [hkind hproperty] at hflag
    cases hflag

/--
A member that a class inherits: handed down by a class of another key above it, which has it as its
own member or from a trait and is said to declare it. It is not private.
-/
def InheritedMember (classes : Table ClassDecl) (c : ClassDecl) (kind : MemberKind)
    (x : AnyMember) : Prop :=
  ∃ k d, classes.find? k = some d ∧ Relation.TransGen (HeirOf classes kind) k (key c.name) ∧
    k ≠ key c.name ∧ x.info.declaringClass = d.name ∧
    ∃ m, (m ∈ d.membersOf kind ∨ TraitMember classes d kind m) ∧ isHeritable m.info = true ∧
      x = m.relabel inherited

/-- The same along a walk: from a class that is being flattened come its own members only. -/
def Carried (classes : Table ClassDecl) (stack : List String) (k : String) (kind : MemberKind)
    (x : AnyMember) : Prop :=
  ∃ k' d, classes.find? k' = some d ∧ Relation.TransGen (HeirOf classes kind) k' k ∧ k' ≠ k ∧
    x.info.declaringClass = d.name ∧
    ∃ m, (m ∈ d.membersOf kind ∨ k' ∉ stack ∧ TraitMember classes d kind m) ∧
      isHeritable m.info = true ∧ x = m.relabel inherited

/-- What a walk makes of the class `c` of key `k`. A class on the stack stays as it is. -/
structure Composed (classes : Table ClassDecl) (stack : List String) (k : String)
    (c m : ClassDecl) : Prop where
  headed : Headed c m
  grown : Grown
    (fun kind x => k ∉ stack ∧ (TraitMember classes c kind x ∨ Carried classes stack k kind x)) c m

/-- What is found for a class that reaches no cycle is found from everywhere. -/
theorem Composed.anywhere {k : String} {c m : ClassDecl} (h : Composed classes [] k c m)
    (hacc : Acc (Above classes) k) {bound : Nat} {stack : List String}
    (htrail : Trail (Above classes) classes bound stack k) :
    Composed classes stack k c m := by
  refine ⟨h.headed, h.grown.mono ?_⟩
  rintro kind x ⟨-, hx⟩
  refine ⟨htrail.not_mem hacc, hx.imp_right ?_⟩
  rintro ⟨k', d, hd, hpath, hne, hdeclaring, y, hy, hheritable, rfl⟩
  have hoff : k' ∉ stack := by
    intro hmem
    have hup := Relation.TransGen.mono (fun _ _ => above_of_heirOf) _ _ hpath
    exact not_above_self hacc ((htrail.below k' hmem).trans hup)
  exact ⟨k', d, hd, hpath, hne, hdeclaring, y, hy.imp_right fun hy => ⟨hoff, hy.2⟩,
    hheritable, rfl⟩

theorem Composed.alone {stack : List String} {k : String} {c m : ClassDecl}
    (h : Composed classes stack k c m) :
    Composed classes [] k c m := by
  refine ⟨h.headed, h.grown.mono ?_⟩
  rintro kind x ⟨-, hx⟩
  refine ⟨List.not_mem_nil, hx.imp_right ?_⟩
  rintro ⟨k', d, hd, hpath, hne, hdeclaring, y, hy, hheritable, rfl⟩
  exact ⟨k', d, hd, hpath, hne, hdeclaring, y, hy.imp_right fun hy => ⟨List.not_mem_nil, hy.2⟩,
    hheritable, rfl⟩

theorem same_relabel {kind : MemberKind} (m : AnyMember) :
    AnyMember.same kind (m.relabel inherited) m = true := by
  simp [AnyMember.same, AnyMember.hasName, inherited]

/-- **One ancestor.** What a class takes from a flattened ancestor was declared in another class
above it. -/
theorem grown_inherit_composed (hf : Filed classes) {stack : List String} {k : String}
    {c : ClassDecl} (hc : classes.find? k = some c) {a : String × Bool} (ha : a ∈ c.ancestors)
    {ca ra : ClassDecl} (hca : classes.find? (key a.1) = some ca)
    (h : Composed classes (k :: stack) (key a.1) ca ra) {m : ClassDecl}
    (hown : ∀ kind, ∀ x ∈ c.membersOf kind, x ∈ m.membersOf kind) :
    Grown (Carried classes stack k) m (m.inherit ra a.2) := by
  refine (grown_inherit m ra a.2).mono ?_
  rintro kind x ⟨hkind, ⟨y, hy, hheritable, rfl⟩, hnew⟩
  have hheir := heirOf_of_mem hc ha hkind
  -- the names of the class itself are taken
  have hnot : ∀ y' ∈ c.membersOf kind, y.relabel inherited ≠ y'.relabel inherited := by
    intro y' hy' heq
    have hfresh := hnew y' (hown kind y' hy')
    rw [heq, same_relabel] at hfresh
    cases hfresh
  rcases h.grown.cases hy with hy
    | ⟨hoff, htrait | ⟨k', d, hd, hpath, hne, hdeclaring, y₀, hy₀, hheritable₀, rfl⟩⟩
  · -- a member of the ancestor itself
    refine ⟨key a.1, ca, hca, .single hheir, ?_, ?_, y, Or.inl hy, hheritable, rfl⟩
    · intro heq
      rw [heq, hc] at hca
      obtain rfl := Option.some.inj hca
      exact hnot y hy rfl
    · rw [AnyMember.info_relabel]
      exact hf.declaring _ ca hca kind y hy
  · -- one that the ancestor has from a trait, so that it is not being flattened
    rw [List.mem_cons, not_or] at hoff
    refine ⟨key a.1, ca, hca, .single hheir, hoff.1, ?_, y, Or.inr ⟨hoff.2, htrait⟩,
      hheritable, rfl⟩
    obtain ⟨name, -, t, -, -, kx, own, -, -, y', -, rfl⟩ := htrait
    simp only [AnyMember.info_relabel]
    rfl
  · -- one from further up; from the class itself it could only be an own member
    have hsame : (y₀.relabel inherited).relabel inherited = y₀.relabel inherited := by
      rw [AnyMember.relabel_relabel]
      rfl
    rw [hsame] at hnot ⊢
    have hother : k' ≠ k := by
      rintro rfl
      rw [hc] at hd
      obtain rfl := Option.some.inj hd
      rcases hy₀ with hy₀ | ⟨hmet, -⟩
      · exact hnot y₀ hy₀ rfl
      · exact hmet List.mem_cons_self
    refine ⟨k', d, hd, hpath.tail hheir, hother, ?_, y₀, ?_, hheritable₀, rfl⟩
    · simpa using hdeclaring
    · exact hy₀.imp_right fun hy => ⟨fun hmem => hy.1 (List.mem_cons_of_mem k hmem), hy.2⟩

/-! ## The walk -/

/-- The classes of `ix`, with nothing remembered but what a walk composes for a class that reaches
no cycle. -/
structure Traced (ix i : Index) : Prop where
  table : SameTable ix i
  memory : ∀ k m, i.flattened.find? k = some m →
    Acc (Above ix.classes) k ∧ ∃ c, ix.classes.find? k = some c ∧ Composed ix.classes [] k c m

/-- What a walk from the class of key `k` comes to. -/
structure Walked (classes : Table ClassDecl) (stack : List String) (k : String)
    (r : Option ClassDecl × Bool) :
    Prop where
  composed : ∀ m, r.1 = some m → ∃ c, classes.find? k = some c ∧ Composed classes stack k c m
  acyclic : r.2 = false → Acc (Above classes) k

variable {ix : Index}

theorem own_traced (hu : Unmapped ix) (name : String) :
    Ensures (Traced ix) (own name) (· = ix.classes.find? (key name)) := by
  intro i hi
  obtain ⟨hfound, -⟩ := own_reads hu name i hi.table
  rw [own_of_unmapped (hi.table.unmapped hu)] at hfound ⊢
  exact ⟨hfound, hi⟩

/-- A walk that met no cycle is remembered. -/
theorem remember_traced {k : String} {c m : ClassDecl} (hc : ix.classes.find? k = some c)
    (hacc : Acc (Above ix.classes) k) (h : Composed ix.classes [] k c m) :
    Ensures (Traced ix) (modify fun i => { i with flattened := i.flattened.insert k m })
      fun _ => True := by
  intro i hi
  refine ⟨trivial, (remember_keeps (contains_of_find? hc) m i hi.table).2, ?_⟩
  intro k' m' hfind
  change (i.flattened.insert k m).find? k' = some m' at hfind
  rw [Table.find?_insert] at hfind
  split at hfind
  · rename_i heq
    obtain rfl := Option.some.inj hfind
    rw [beq_iff_eq] at heq
    subst heq
    exact ⟨hacc, c, hc, h⟩
  · exact hi.memory k' m' hfind

/-- The loop over the ancestors: what is taken from them, and that no cycle is reached from those
behind. -/
structure Gathered (classes : Table ClassDecl) (stack : List String) (k : String) (c : ClassDecl)
    (left : List (String × Bool)) (sofar : ClassDecl × Bool) : Prop where
  composed : Composed classes stack k c sofar.1
  acyclic : sofar.2 = false → ∀ a ∈ c.ancestors, a ∈ left ∨ Acc (Above classes) (key a.1)

theorem Gathered.step (hf : Filed classes) {stack : List String} {k : String} {c : ClassDecl}
    (hc : classes.find? k = some c) (hk : k ∉ stack) {a : String × Bool} (ha : a ∈ c.ancestors)
    {left : List (String × Bool)} {sofar : ClassDecl × Bool}
    (h : Gathered classes stack k c (a :: left) sofar) {r : Option ClassDecl × Bool}
    (hr : Walked classes (k :: stack) (key a.1) r) :
    Gathered classes stack k c left (inheritFound sofar.1 r.1 a.2, sofar.2 || r.2) := by
  refine ⟨?_, fun hflag a' ha' => ?_⟩
  · cases hfound : r.1 with
    | none => exact h.composed
    | some ra =>
      obtain ⟨ca, hca, hra⟩ := hr.composed ra hfound
      have hgrown := grown_inherit_composed hf hc ha hca hra fun _ _ hx => h.composed.grown.mem hx
      refine ⟨h.composed.headed.addMembers _ _, h.composed.grown.trans (hgrown.mono ?_)⟩
      exact fun kind x hx => ⟨hk, Or.inr hx⟩
  · obtain ⟨hsofar, hwalk⟩ := Bool.or_eq_false_iff.mp hflag
    rcases h.acyclic hsofar a' ha' with hleft | hacc
    · rcases List.mem_cons.mp hleft with rfl | hleft
      · exact Or.inr (hr.acyclic hwalk)
      · exact Or.inl hleft
    · exact Or.inr hacc

/-- **Every walk composes what it finds**, whatever is remembered. -/
theorem flatten_traced (hu : Unmapped ix) (hf : Filed ix.classes) (bound : Nat) :
    ∀ (stack : List String) (name : String),
      Trail (Above ix.classes) ix.classes bound stack (key name) →
      Ensures (Traced ix) (flatten bound stack name) (Walked ix.classes stack (key name)) := by
  induction bound with
  | zero =>
    intro stack name htrail
    obtain ⟨n, hn⟩ := htrail.pos
    omega
  | succ bound ih =>
    intro stack name htrail
    simp only [flatten]
    refine Ensures.get fun i hi => ?_
    cases hmem : i.flattened.find? (key name) with
    | some m =>
      obtain ⟨hacc, c, hc, hcomposed⟩ := hi.memory _ _ hmem
      refine ⟨⟨fun m' hm' => ?_, fun _ => hacc⟩, hi⟩
      obtain rfl := Option.some.inj hm'
      exact ⟨c, hc, hcomposed.anywhere hacc htrail⟩
    | none =>
      refine Ensures.bind (R := Walked ix.classes stack (key name)) (own_traced hu name)
        (fun found hfound => ?_) i hi
      cases found with
      | none => exact Ensures.pure ⟨by simp, fun _ => acc_of_unknown hfound.symm⟩
      | some c =>
        have hc := hfound.symm
        by_cases hk : key name ∈ stack
        · have hcon : stack.contains (key name) = true := by simpa using hk
          simp only [hcon, if_true]
          refine Ensures.pure ⟨fun m hm => ?_, by simp⟩
          obtain rfl := Option.some.inj hm
          exact ⟨c, hc, rfl, Grown.refl c⟩
        · have hcon : stack.contains (key name) = false := by simpa using hk
          simp only [hcon, Bool.false_eq_true, if_false]
          refine (addTraits_reads (own_traced hu) _ _ _ _ _).bind fun merged hmerged => ?_
          subst hmerged
          have htraits : Gathered ix.classes stack (key name) c c.ancestors
              (adoptAll ix.classes traitDepth (key name :: stack) none c.traits c, false) := by
            refine ⟨⟨adoptAll_headed _ _ _ _ _ rfl,
              (grown_adoptAll hf _ _ _ _ _ (Headed.refl c)).mono ?_⟩, ?_⟩
            · exact fun kind x hx => ⟨hk, Or.inl hx⟩
            · exact fun _ a ha => Or.inl ha
          refine Ensures.bind
            (Ensures.foldlM (R := Gathered ix.classes stack (key name) c) c.ancestors
              (fun sofar a left ha hsofar => ?_) _ htraits) fun result hresult => ?_
          · have hstep := htrail.step (contains_of_find? hc) hk ⟨c, hc, a, ha, rfl⟩
            refine (ih _ a.1 hstep).bind fun r hr => ?_
            have hnext := hsofar.step hf hc hk ha hr
            obtain ⟨found, cyclic⟩ := r
            cases found <;> exact Ensures.pure hnext
          obtain ⟨merged, cyclic⟩ := result
          have hwalked : Walked ix.classes stack (key name) (some merged, cyclic) := by
            refine ⟨fun m hm => ?_, fun hflag => acc_of_ancestors hc fun a ha => ?_⟩
            · obtain rfl := Option.some.inj hm
              exact ⟨c, hc, hresult.composed⟩
            · exact (hresult.acyclic hflag a ha).resolve_left List.not_mem_nil
          cases cyclic with
          | true => exact Ensures.pure hwalked
          | false =>
            refine Ensures.bind (remember_traced hc (hwalked.acyclic rfl) hresult.composed.alone)
              fun _ _ => ?_
            exact Ensures.pure hwalked

theorem describe?_traced (hu : Unmapped ix) (hf : Filed ix.classes) (name : String) :
    Ensures (Traced ix) (describe? name) fun found =>
      ∀ m, found = some m → ∃ c, ix.classes.find? (key name) = some c ∧
        Composed ix.classes [] (key name) c m := by
  refine Ensures.get fun i hi => ?_
  exact Ensures.bind
    (R := fun found => ∀ m, found = some m →
      ∃ c, ix.classes.find? (key name) = some c ∧ Composed ix.classes [] (key name) c m)
    (flatten_traced hu hf i.bound [] name (Trail.start hi.table.room _))
      (fun r hr => Ensures.pure hr.composed) i hi

/-! ## Every index -/

/-- The states of an index: a new one, and what adding files, looking declarations up, describing
classes and building views make of it. With a project at hand each of these may read files. -/
inductive Reached (project : Option Project) : Index → Prop where
  | new {parser : Source.Parser} : Reached project { parser, project }
  | add {ix : Index} (file content : String) :
      Reached project ix → Reached project (ix.add file content)
  | own {ix : Index} (name : String) : Reached project ix → Reached project (Index.own name ix).2
  | describe {ix : Index} (name : String) :
      Reached project ix → Reached project (Index.describe name ix).2
  | build {ix : Index} (ctx : LinkContext) (b : Builder) (name : String) : Reached project ix →
      Reached project ((Builder.build ctx name).run b ix).2

variable {project : Option Project}

/-- What holds of a new index and is kept by adding, looking up and flattening holds in every
state. -/
theorem Reached.holds {P : Index → Prop} (hnew : ∀ parser, P { parser, project })
    (hadd : ∀ ix file content, P ix → P (ix.add file content))
    (hown : ∀ ix name, Reached project ix → P ix → P (Index.own name ix).2)
    (hwalk : ∀ ix, Reached project ix → P ix → ∃ V : Index → Prop, V ix ∧ (∀ i, V i → P i) ∧
      ∀ name, Ensures V (describe? name) fun _ => True) (h : Reached project ix) : P ix := by
  induction h with
  | new => exact hnew _
  | add file content _ ih => exact hadd _ file content ih
  | own name hreach ih => exact hown _ name hreach ih
  | @describe ix name hreach ih =>
    obtain ⟨V, hV, hP, hdescribe⟩ := hwalk ix hreach ih
    rw [describe_apply]
    exact hP _ (hdescribe name ix hV).2
  | @build ix ctx b name hreach ih =>
    obtain ⟨V, hV, hP, hdescribe⟩ := hwalk ix hreach ih
    have hkeeps := (Builder.build_agree (coherent_of_ensures hdescribe) ctx name b).ensures
    exact hP _ (hkeeps ix hV).2

/-- Looking for the file of a class leaves the index as it is, or notes the name, or adds a
file. -/
theorem autoload_cases (ix : Index) (name : String) :
    ix.autoload name = ix ∨ ix.autoload name = { ix with missing := key name :: ix.missing } ∨
      ∃ path text, ix.autoload name = ix.add path text := by
  unfold autoload
  split
  · exact .inl rfl
  split
  · exact .inl rfl
  dsimp only
  split
  · exact .inr (.inl rfl)
  split
  · rename_i hload
    unfold load at hload
    split at hload
    · obtain ⟨-, rfl⟩ := Prod.mk.inj (Except.ok.inj hload)
      exact .inr (.inr ⟨_, _, rfl⟩)
    · cases hload
  · exact .inr (.inl rfl)

/-! ## Lookups that keep a property -/

section

variable {V : Index → Prop}

/-- What looking a declaration up keeps and does not depend on the flattened classes. -/
structure Steady (V : Index → Prop) : Prop where
  own : ∀ name, Ensures V (Index.own name) fun _ => True
  remember : ∀ i flattened, V i → V { i with flattened }

theorem addTraits_steady (hV : Steady V) (depth : Nat) :
    ∀ (stack : List String) (via : Option String) (names : List String) (m : ClassDecl),
      Ensures V (addTraits depth stack via names m) fun _ => True := by
  induction depth with
  | zero => intro stack via names m; exact Ensures.pure trivial
  | succ depth ih =>
    intro stack via names m
    refine Ensures.foldlM_inv names (fun m name _ => ?_) m trivial
    refine (hV.own name).bind fun found _ => ?_
    cases found with
    | none => exact Ensures.pure trivial
    | some trait =>
      simp only
      split
      · exact Ensures.pure trivial
      · exact ih _ _ _ _

theorem flatten_steady (hV : Steady V) (bound : Nat) :
    ∀ (stack : List String) (name : String), Ensures V (flatten bound stack name)
      fun _ => True := by
  induction bound with
  | zero => intro stack name; exact Ensures.pure trivial
  | succ bound ih =>
    intro stack name
    simp only [flatten]
    refine Ensures.get fun i hi => ?_
    cases i.flattened.find? (key name) with
    | some m => exact ⟨trivial, hi⟩
    | none =>
      refine Ensures.bind (R := fun _ => True) (hV.own name) (fun found _ => ?_) i hi
      cases found with
      | none => exact Ensures.pure trivial
      | some c =>
        dsimp only
        split
        · exact Ensures.pure trivial
        refine (addTraits_steady hV _ _ _ _ _).bind fun merged _ => ?_
        refine Ensures.bind
          (Ensures.foldlM_inv (P := fun _ => True) c.ancestors (fun sofar a _ => ?_)
            (merged, false) trivial) fun result _ => ?_
        · refine (ih _ a.1).bind fun r _ => ?_
          obtain ⟨found, cyclic⟩ := r
          cases found <;> exact Ensures.pure trivial
        · obtain ⟨merged, cyclic⟩ := result
          cases cyclic with
          | true => exact Ensures.pure trivial
          | false => exact (Ensures.modify fun i hi => hV.remember i _ hi).bind fun _ _ =>
            Ensures.pure trivial

theorem describe?_steady (hV : Steady V) (name : String) :
    Ensures V (describe? name) fun _ => True :=
  Ensures.get fun i hi =>
    Ensures.bind (R := fun _ => True) (flatten_steady hV i.bound [] name)
      (fun _ _ => Ensures.pure trivial) i hi

/-- What holds of a new index, is kept by adding files and looking up, and does not depend on the
flattened classes holds in every state. -/
theorem Steady.reached (hV : Steady V) (hnew : ∀ parser, V { parser, project })
    (hadd : ∀ ix file content, V ix → V (ix.add file content)) (h : Reached project ix) : V ix :=
  h.holds hnew hadd (fun ix name _ hi => (hV.own name ix hi).2) fun _ _ hi =>
    ⟨V, hi, fun _ => id, describe?_steady hV⟩

end

/-! ## Declarations as they are filed -/

/-- A class of the table is what is found under the key of its name. -/
theorem Filed.find?_of_mem {classes : Table ClassDecl} (h : Filed classes) {c : ClassDecl}
    (hc : c ∈ classes.values) :
    classes.find? (key c.name) = some c := by
  obtain ⟨⟨k, c⟩, hmem, rfl⟩ := List.mem_map.mp hc
  have hfind := Table.find?_of_mem h.nodup hmem
  rw [h.key_name k c hfind]
  exact hfind

theorem nodup_dropClasses {classes : Table ClassDecl} (h : classes.keys.Nodup)
    (names : List String) :
    (dropClasses classes names).keys.Nodup := by
  unfold dropClasses
  induction names generalizing classes with
  | nil => exact h
  | cons name names ih => exact ih (Table.nodup_erase h _)

theorem nodup_putClasses {classes : Table ClassDecl} (h : classes.keys.Nodup)
    (decls : List ClassDecl) :
    (putClasses classes decls).keys.Nodup := by
  unfold putClasses
  induction decls generalizing classes with
  | nil => exact h
  | cons c decls ih => exact ih (Table.nodup_insert h _ _)

theorem nodup_addDecls {ix : Index} (h : ix.classes.keys.Nodup) (file : String)
    (decls : List ClassDecl) :
    (ix.addDecls file decls).classes.keys.Nodup :=
  nodup_putClasses (nodup_dropClasses h _) decls

theorem filed_add {ix : Index} (h : Filed ix.classes) (file content : String) :
    Filed (ix.add file content).classes := by
  have hcases : ∀ k c, (ix.add file content).classes.find? k = some c →
      (c ∈ ix.parser.classes file content ∧ key c.name = k) ∨ ix.classes.find? k = some c := by
    intro k c hc
    exact key_or_find?_of_addDecls hc
  refine ⟨nodup_addDecls h.nodup file _, fun k c hc => ?_, fun k c hc => ?_,
    fun k c hc kind m hm => ?_, fun k c hc kind m hm => ?_⟩
  · exact (hcases k c hc).elim And.right (h.key_name k c)
  · exact (hcases k c hc).elim (fun hnew => Source.name_qualified hnew.1) (h.qualified k c)
  · rcases hcases k c hc with ⟨hmem, -⟩ | hold
    · exact Source.origin_of_mem_classes hmem hm
    · exact h.origin k c hold kind m hm
  · rcases hcases k c hc with ⟨hmem, -⟩ | hold
    · exact Source.declaringClass_of_mem_classes hmem hm
    · exact h.declaring k c hold kind m hm

/-- What holds in every state of an index without mappings. -/
structure Kept (ix : Index) : Prop where
  unmapped : Unmapped ix
  filed : Filed ix.classes
  traced : Traced ix ix

theorem traced_of_nothing {ix : Index} (h : ix.flattened = {}) : Traced ix ix :=
  ⟨sameTable_of_nothing h, by intro k m hm; rw [h] at hm; simp at hm⟩

theorem Traced.kept {ix i : Index} (hk : Kept ix) (h : Traced ix i) : Kept i := by
  refine ⟨h.table.unmapped hk.unmapped, ?_, h.table.self, ?_⟩
  · rw [h.table.classes]
    exact hk.filed
  · rw [h.table.classes]
    exact h.memory

theorem kept_reached (hu : Unmapped { project }) (h : Reached project ix) : Kept ix := by
  refine h.holds ?_ ?_ ?_ ?_
  · exact fun _ =>
      ⟨hu, ⟨List.nodup_nil, by simp, by simp, by simp, by simp⟩, traced_of_nothing rfl⟩
  · -- adding a file forgets all flattened classes
    intro ix file content hk
    refine ⟨?_, filed_add hk.filed file content,
      traced_of_nothing (by unfold Index.add addDecls; rfl)⟩
    intro p hp
    refine hk.unmapped p ?_
    rw [← hp]
    unfold Index.add addDecls
    rfl
  · intro ix name _ hk
    rw [own_of_unmapped hk.unmapped]
    exact hk
  · intro ix _ hk
    refine ⟨Traced ix, hk.traced, fun i hi => hi.kept hk, fun name i hi => ?_⟩
    exact ⟨trivial, (describe?_traced hk.unmapped hk.filed name i hi).2⟩

/--
A flattened class is its declaration with further members behind its own ones, each of which a
trait of the class led to, or another class above handed down.
-/
theorem describe_eq_grown (hu : Unmapped { project }) (h : Reached project ix) {name : String}
    {c : ClassDecl} (hown : (own name ix).1 = some c) :
    ∃ d, (describe name ix).1 = .ok d ∧
      d = { c with constants := d.constants, properties := d.properties, methods := d.methods } ∧
      ∀ kind, ∃ further, d.membersOf kind = c.membersOf kind ++ further ∧
        ∀ m ∈ further, TraitMember ix.classes c kind m ∨ InheritedMember ix.classes c kind m := by
  have hk := kept_reached hu h
  rw [own_of_unmapped hk.unmapped] at hown
  have hknown : (describe? name ix).1.isSome = true := by
    rw [(describe?_finds hk.unmapped name ix hk.traced.table).1]
    exact contains_of_find? hown
  obtain ⟨d, hd⟩ := Option.isSome_iff_exists.mp hknown
  obtain ⟨c', hc', hcomposed⟩ := (describe?_traced hk.unmapped hk.filed name ix hk.traced).1 d hd
  obtain rfl := Option.some.inj (hown.symm.trans hc')
  refine ⟨d, by rw [describe_apply, hd]; rfl, hcomposed.headed, hcomposed.grown.mono ?_⟩
  rintro kind x ⟨-, hx⟩
  refine hx.imp_right ?_
  rintro ⟨k', d', hd', hpath, hne, hdeclaring, m, hm, hheritable, rfl⟩
  have hkey := hk.filed.key_name _ c hown
  exact ⟨k', d', hd', hkey ▸ hpath, hkey ▸ hne, hdeclaring, m, hm.imp_right And.right,
    hheritable, rfl⟩

/-- Two classes that extend each other and use one trait. What is further is a constant of the
interface, the property of the trait, the method of the trait it uses and that of the
other class. -/
theorem describe_eq_grown_cycle :
    let ix := ({} : Index).add "a.php"
      "<?php trait U { function u() {} } trait T { use U; public $q; } interface I { const X = 1; }
      class A extends B implements I { use T; private function p() {} }
      class B extends A { use T; function g() {} }"
    let names := fun d : ClassDecl =>
      [d.constants.map (·.name), d.properties.map (·.name), d.methods.map (·.name)]
    ∃ c, (own "A" ix).1 = some c ∧ names c = [[], [], ["p"]] ∧
      ∃ d, ((describe "A" ix).1 = .ok d ∧
          d =
            { c with constants := d.constants, properties := d.properties, methods := d.methods } ∧
          ∀ kind, ∃ further, d.membersOf kind = c.membersOf kind ++ further ∧
            ∀ m ∈ further, TraitMember ix.classes c kind m ∨ InheritedMember ix.classes c kind m) ∧
        names d = [["X"], ["q"], ["p", "u", "g"]] := by
  intro ix names
  have hu : Unmapped { project := none } := by intro p hp; simp at hp
  have hreach : Reached none ix := .add _ _ .new
  -- the source is read once for both
  obtain ⟨hknown, hfound⟩ : (own "A" ix).1.map names = some [[], [], ["p"]] ∧
      (describe "A" ix).1.toOption.map names = some [["X"], ["q"], ["p", "u", "g"]] := by
    decide +kernel
  obtain ⟨c, hc, hown⟩ := Option.map_eq_some_iff.mp hknown
  obtain ⟨d, hgrown⟩ := describe_eq_grown hu hreach hc
  rw [hgrown.1] at hfound
  exact ⟨c, hc, hown, d, hgrown, Option.some.inj hfound⟩

end Index

end ClassDocs

import ClassDocs.Proofs.Closure
import ClassDocs.Proofs.TypeTokens

/-!
# Searching for inherited documentation

The search for an ancestor's text remembers which ancestors it has looked at and counts its steps.
Neither shows: on a class graph without cycles and without very long ways up it finds what a plain
search finds (`resolve_eq_plain`), which looks at every ancestor as often as it comes to it.

An ancestor that was looked at is met again only after it had nothing to give, since a search that
finds a text is over, and then it still has nothing (`Spent`). The classes whose search is underway
are not met: they are below.
-/

namespace ClassDocs

namespace Index

/-! ## The way up -/

variable {classes : Table ClassDecl} {ix i : Index} {k : String} {c : ClassDecl}

/-- `Ascent classes n k`: a way of `n` steps leads up from the class of key `k`, through known
classes. -/
def Ascent (classes : Table ClassDecl) : Nat → String → Prop
  | 0, _ => True
  | n + 1, k => ∃ a, Above classes a k ∧ classes.contains a = true ∧ Ascent classes n a

theorem ascent_succ_iff {n : Nat} : Ascent classes (n + 1) k ↔
    ∃ c ∈ classes.find? k, ∃ a ∈ c.ancestors, classes.contains (key a.1) = true ∧
      Ascent classes n (key a.1) := by
  constructor
  · rintro ⟨-, ⟨c, hc, a, ha, rfl⟩, hknown, hup⟩
    exact ⟨c, hc, a, ha, hknown, hup⟩
  · rintro ⟨c, hc, a, ha, hknown, hup⟩
    exact ⟨_, ⟨c, hc, a, ha, rfl⟩, hknown, hup⟩

instance decidableAscent (classes : Table ClassDecl) :
    ∀ (n : Nat) (k : String), Decidable (Ascent classes n k)
  | 0, _ => isTrue trivial
  | n + 1, _ =>
    have := decidableAscent classes n
    decidable_of_iff' _ ascent_succ_iff

theorem Ascent.shorten {n : Nat} :
    ∀ {k : String}, Ascent classes (n + 1) k → Ascent classes n k := by
  induction n with
  | zero => intro _ _; exact trivial
  | succ n ih =>
    rintro k ⟨a, habove, hknown, hup⟩
    exact ⟨a, habove, hknown, ih hup⟩

/-- A way up from a class is one from the classes below it, or longer. -/
theorem Ascent.below {n : Nat} {a : String} (h : Ascent classes n a)
    (ha : Relation.ReflTransGen (Above classes) a k) : Ascent classes n k := by
  induction ha with
  | refl => exact h
  | @tail b k _ hbk ih =>
    cases n with
    | zero => exact trivial
    | succ n =>
      -- one more step makes the way longer, which is more than is needed
      have hknown : classes.contains b = true := by
        obtain ⟨-, ⟨c, hc, -⟩, -⟩ := ih
        exact contains_of_find? hc
      exact Ascent.shorten ⟨b, hbk, hknown, ih⟩

/-- No cycle is reached where all ways up are short. -/
theorem acc_of_not_ascent {n : Nat} :
    ∀ {k : String}, ¬ Ascent classes n k → Acc (Above classes) k := by
  induction n with
  | zero => intro _ h; exact absurd trivial h
  | succ n ih =>
    intro k h
    refine ⟨k, fun a ha => ?_⟩
    cases hknown : classes.find? a with
    | none => exact acc_of_unknown hknown
    | some c => exact ih fun hup => h ⟨a, ha, contains_of_find? hknown, hup⟩

/-- Without a cycle no way up is longer than the number of classes. -/
theorem Ascent.lt_of_acc {n : Nat} :
    ∀ {bound : Nat} {stack : List String} {k : String}, Ascent classes n k →
    Acc (Above classes) k → Trail (Above classes) classes bound stack k → n < bound := by
  induction n with
  | zero =>
    intro bound stack k _ _ htrail
    obtain ⟨b, rfl⟩ := htrail.pos
    exact Nat.succ_pos b
  | succ n ih =>
    rintro bound stack k ⟨a, habove, -, hup⟩ hacc htrail
    obtain ⟨b, rfl⟩ := htrail.pos
    obtain ⟨c, hc, -⟩ := id habove
    have hstep := htrail.step (contains_of_find? hc) (htrail.not_mem hacc) habove
    exact Nat.succ_lt_succ (ih hup (hacc.inv habove) hstep)

/-! ## What is seen of an ancestor -/

theorem Headed.ancestors {c m : ClassDecl} (h : Headed c m) : m.ancestors = c.ancestors := by
  unfold ClassDecl.ancestors
  rw [h]

theorem Traced.above (ht : Traced ix i) (h : i.flattened.find? k = some c) {a : String × Bool}
    (ha : a ∈ c.ancestors) : Above ix.classes (key a.1) k := by
  obtain ⟨-, own, hown, hcomposed⟩ := ht.memory _ _ h
  rw [hcomposed.headed.ancestors] at ha
  exact ⟨own, hown, a, ha, rfl⟩

theorem Traced.key_name (hf : Filed ix.classes) (ht : Traced ix i)
    (h : i.flattened.find? k = some c) :
    key c.name = k := by
  obtain ⟨-, own, hown, hcomposed⟩ := ht.memory _ _ h
  rw [hcomposed.headed.name]
  exact hf.key_name k own hown

/-- **The class that declares what is seen on an ancestor** is that ancestor or one above it. -/
theorem Traced.declaring (hf : Filed ix.classes) (ht : Traced ix i)
    (h : i.flattened.find? k = some c) {subject : Subject} {declaring : String}
    {raw : Option String} (hcomment : Inherit.commentOn c subject = some (declaring, raw)) :
    Relation.ReflTransGen (Above ix.classes) (key declaring) k := by
  cases subject with
  | wholeClass =>
    obtain ⟨rfl, -⟩ := Prod.mk.inj (Option.some.inj hcomment)
    rw [ht.key_name hf h]
  | member name kind =>
    obtain ⟨m, hfind, hm⟩ := Option.map_eq_some_iff.mp hcomment
    obtain ⟨rfl, -⟩ := Prod.mk.inj hm
    rw [ClassDecl.findMember_eq] at hfind
    obtain ⟨-, own, hown, hcomposed⟩ := ht.memory _ _ h
    have hkey := hf.key_name k own hown
    rcases hcomposed.grown.cases (List.mem_of_find?_eq_some hfind) with hmem
      | ⟨-, htrait | hcarried⟩
    · rw [hf.declaring k own hown kind m hmem, hkey]
    · obtain ⟨-, -, t, -, -, -, -, -, -, y, -, rfl⟩ := htrait
      have hname : (ClassDecl.adopted own.name t.name y.info).declaringClass = own.name := rfl
      rw [AnyMember.info_relabel, hname, hkey]
    · obtain ⟨k', d, hd, hpath, -, hdeclaring, -⟩ := hcarried
      rw [hdeclaring, hf.key_name k' d hd]
      exact (Relation.TransGen.mono (fun _ _ => above_of_heirOf) _ _ hpath).to_reflTransGen

/-- Names that differ in letter case have one key. -/
theorem key_eq_of_lower {name name' : String} (h : Text.lower name = Text.lower name') :
    key name = key name' := by
  have hroot : ∀ name : String, key name = Name.unrooted (Text.lower name) := by
    intro name
    cases hname : name.toList with
    | nil =>
      obtain rfl := String.toList_eq_nil_iff.mp hname
      rfl
    | cons c rest =>
      have hlower : (Text.lower name).toList = c.toLower :: rest.map Char.toLower := by
        rw [Text.lower, String.toList_ofList, hname, List.map_cons]
      by_cases hc : c = '\\'
      · subst hc
        rw [key, Source.unrooted_of_rooted hname, Source.unrooted_of_rooted hlower, Text.lower,
          String.toList_ofList]
      · have hslash := TypeExpr.apply_toLower (p := (· == '\\')) (by decide) c
        have hc' : c.toLower ≠ '\\' := by
          intro heq
          rw [heq] at hslash
          exact hc (by simpa using hslash.symm)
        rw [key, Source.unrooted_of_plain ⟨c, rest, hname, hc⟩,
          Source.unrooted_of_plain ⟨_, _, hlower, hc'⟩]
  rw [hroot, hroot, h]

end Index

/-! ## The plain search -/

namespace Inherit

open Index

variable {ix i : Index} {α β : Type} {subject : Subject} {s s' : Search}

/-- Documentation, with the issues met on the way to it. -/
abbrev Found := ResolvedDoc × List Issue

/-- The documentation in a comment, with `above` as the search through the ancestors of
its class. -/
def settle (above : Lookup (Option Found)) (label : String) (doc : Docblock) : Lookup Found :=
  if !doc.hasMarker then return (literal doc, [])
  else do
    match ← above with
    | some (found, issues) => return (filled doc found, issues)
    | none => return (literal doc, [.unresolvedInherit label])

/-- The documentation of the subject on one ancestor: from the comment it has there or, without
one, from above. -/
def plainOn (above : String → Lookup (Option Found)) (subject : Subject) (name : String) :
    Lookup (Option Found) := do
  match ← describe? name with
  | none => return none
  | some ancestor =>
    match commentOn ancestor subject with
    | none => return none
    | some (declaring, some raw) =>
      return some (← settle (above declaring) (subject.label declaring) (Docblock.parse raw))
    | some (_, none) => above ancestor.name

/-- The first answer that one of several ancestors gives. -/
def firstFound (tryOne : String → Lookup (Option Found)) : List String → Lookup (Option Found)
  | [] => return none
  | name :: names => do
    match ← tryOne name with
    | some found => return some found
    | none => firstFound tryOne names

/-- The documentation of the subject on the nearest ancestor that has some, by going through all
ancestors in turn. Only `steps` ends the search, if the way up is longer. -/
def plainAbove (subject : Subject) : Nat → String → Lookup (Option Found)
  | 0, _ => return none
  | steps + 1, className => do
    match ← describe? className with
    | none => return none
    | some c => firstFound (plainOn (plainAbove subject steps) subject) (c.ancestors.map Prod.fst)

/-- The documentation of a subject from the comment it has in a class, by the plain search. -/
def plainResolve (steps : Nat) (className : String) (subject : Subject) :
    Option String → Lookup Found
  | none => return ({}, [])
  | some raw =>
    settle (plainAbove subject steps className) (subject.label className) (Docblock.parse raw)

/-! ## One search beside the other -/

/-- At the state `i` a lookup gives `a` and changes nothing. -/
def Rests (i : Index) (m : Lookup α) (a : α) : Prop := m i = (a, i)

theorem Rests.bind {m : Lookup α} {f : α → Lookup β} {a : α} {b : β} (hm : Rests i m a)
    (hf : Rests i (f a) b) :
    Rests i (m >>= f) b := by
  show f (m i).1 (m i).2 = (b, i)
  rw [hm]
  exact hf

theorem Rests.run_bind {x : SearchM α} {f : α → SearchM β} {a : α} {r : β × Search}
    (hx : Rests i (x.run s) (a, s')) (hf : Rests i ((f a).run s') r) :
    Rests i ((x >>= f).run s) r := by
  rw [StateT.run_bind]
  exact hx.bind hf

theorem Rests.run_lift {m : Lookup α} {a : α} (hm : Rests i m a) :
    Rests i ((m : SearchM α).run s) (a, s) :=
  hm.bind (f := fun a => pure (a, s)) rfl

/-- The plain search finds nothing on an ancestor, whatever its bound. -/
def Barren (i : Index) (subject : Subject) (name : String) : Prop :=
  ∀ steps, Rests i (plainOn (plainAbove subject steps) subject name) none

/-- The ancestors of the class of key `k` that were looked at have nothing to give. -/
def Spent (classes : Table ClassDecl) (i : Index) (subject : Subject) (k : String)
    (visited : List String) : Prop :=
  ∀ name, Text.lower name ∈ visited → Relation.TransGen (Above classes) (key name) k →
    Barren i subject name

theorem Spent.above {classes : Table ClassDecl} {k a : String} {visited : List String}
    (h : Spent classes i subject k visited) (ha : Relation.ReflTransGen (Above classes) a k) :
    Spent classes i subject a visited :=
  fun name hname hpath => h name hname (hpath.trans_left ha)

/--
A search comes to `found`, as a plain one with a bound of `h` or more steps does. If this is
nothing then the plain search finds nothing with any bound, nor on the ancestors that the search
looked at.
-/
structure Agrees (i : Index) (subject : Subject) (h : Nat) (plain : Nat → Lookup (Option Found))
    (search : SearchM (Option ResolvedDoc)) (s : Search) (found : Option Found) (s' : Search) :
    Prop where
  run : Rests i (search.run s) (found.map Prod.fst, s')
  issues : s'.issues = s.issues ++ (found.map Prod.snd).getD []
  enough : ∀ steps, h ≤ steps → Rests i (plain steps) found
  never : found = none → ∀ steps, Rests i (plain steps) none
  visited : found = none → ∀ v ∈ s'.visited, v ∈ s.visited ∨ ∀ name, Text.lower name = v →
    Barren i subject name

theorem agrees_none {h : Nat} {plain : Nat → Lookup (Option Found)}
    {search : SearchM (Option ResolvedDoc)} (hrun : Rests i (search.run s) (none, s))
    (hplain : ∀ steps, Rests i (plain steps) none) :
    Agrees i subject h plain search s none s :=
  ⟨hrun, by simp, fun steps _ => hplain steps, fun _ => hplain, fun _ _ hv => Or.inl hv⟩

theorem Agrees.spent {classes : Table ClassDecl} {k : String} {h : Nat}
    {plain : Nat → Lookup (Option Found)} {search : SearchM (Option ResolvedDoc)}
    (ha : Agrees i subject h plain search s none s') (hs : Spent classes i subject k s.visited) :
    Spent classes i subject k s'.visited := by
  intro name hname hpath
  rcases ha.visited rfl _ hname with hold | hnew
  · exact hs name hold hpath
  · exact hnew name rfl

/-- One ancestor after the other. -/
theorem firstOf_agrees {classes : Table ClassDecl} {k : String} {h : Nat}
    (plainOne : Nat → String → Lookup (Option Found))
    (tryOne : String → SearchM (Option ResolvedDoc)) (names : List String)
    (htry : ∀ name ∈ names, ∀ s, Spent classes i subject k s.visited →
      ∃ found s', Agrees i subject h (plainOne · name) (tryOne name) s found s') :
    ∀ s, Spent classes i subject k s.visited → ∃ found s',
      Agrees i subject h (fun steps => firstFound (plainOne steps) names)
        (firstOf tryOne names) s found s' := by
  induction names with
  | nil =>
    intro s _
    exact ⟨none, s, agrees_none rfl fun _ => rfl⟩
  | cons name names ih =>
    obtain ⟨hone, hrest⟩ := List.forall_mem_cons.mp htry
    intro s hs
    obtain ⟨found, s', hfirst⟩ := hone s hs
    cases found with
    | some f =>
      -- the first answer ends either search
      refine ⟨some f, s', hfirst.run.run_bind rfl, hfirst.issues,
        fun steps hsteps => ?_, nofun, nofun⟩
      exact (hfirst.enough steps hsteps).bind rfl
    | none =>
      -- without one both go on, and what was looked at meanwhile has nothing to give
      obtain ⟨found, s'', hnext⟩ := ih hrest s' (hfirst.spent hs)
      refine ⟨found, s'', hfirst.run.run_bind hnext.run, ?_, fun steps hsteps => ?_,
        fun hnone steps => ?_, fun hnone v hv => ?_⟩
      · rw [hnext.issues, hfirst.issues]
        simp
      · exact (hfirst.enough steps hsteps).bind (hnext.enough steps hsteps)
      · exact (hfirst.never rfl steps).bind (hnext.never hnone steps)
      · exact (hnext.visited hnone v hv).elim (hfirst.visited rfl v) Or.inr

/-- A comment on its class, given the search through the ancestors. -/
theorem resolveWith_agrees {h depth : Nat} (hdepth : depth < maxDepth)
    {find : Nat → String → SearchM (Option ResolvedDoc)} {plain : Nat → Lookup (Option Found)}
    {className : String} {found : Option Found}
    (ha : Agrees i subject h plain (find depth className) s found s') (doc : Docblock) :
    ∃ r s'', Rests i ((resolveWith find depth className subject doc).run s) (r.1, s'') ∧
      s''.issues = s.issues ++ r.2 ∧
      ∀ steps, h ≤ steps → Rests i (settle (plain steps) (subject.label className) doc) r := by
  unfold resolveWith settle
  cases hmarker : doc.hasMarker with
  | false => exact ⟨(literal doc, []), s, rfl, by simp, fun _ _ => rfl⟩
  | true =>
    simp only [Bool.not_true, Bool.false_eq_true, if_false, hdepth, if_true]
    have hissues := ha.issues
    cases found with
    | some f =>
      refine ⟨(filled doc f.1, f.2), s', ha.run.run_bind rfl, hissues, fun steps hs => ?_⟩
      exact (ha.enough steps hs).bind rfl
    | none =>
      refine ⟨(literal doc, [.unresolvedInherit (subject.label className)]), _,
        ha.run.run_bind rfl, ?_, fun steps hs => (ha.enough steps hs).bind rfl⟩
      show s'.issues ++ _ = _
      rw [hissues]
      simp

/-- Nothing but what a lookup gives is seen of it. -/
theorem bind_apply_eq {m m' : Lookup α} {i i' : Index} (h : m i = m' i') (f : α → Lookup β) :
    (m >>= f) i = (m' >>= f) i' := by
  show f (m i).1 (m i).2 = f (m' i').1 (m' i').2
  rw [h]

/-- What is so of one spelling of a name is so of all. -/
theorem barren_of_lower (hu : Unmapped ix) (htable : SameTable ix i) {name name' : String}
    (hcovers : Covers ix i (key name)) (hlower : Text.lower name' = Text.lower name)
    (h : Barren i subject name) :
    Barren i subject name' := by
  have hkey := key_eq_of_lower hlower
  have hsame : describe? name' i = describe? name i := by
    rw [describe?_of_covers hu htable (hkey ▸ hcovers),
      describe?_of_covers hu htable hcovers, hkey]
  exact fun steps => (bind_apply_eq hsame _).trans (h steps)

/-- What the search does with an ancestor that it has not looked at. -/
def lookAt (find : Nat → String → SearchM (Option ResolvedDoc)) (depth : Nat) (subject : Subject)
    (name : String) :
    SearchM (Option ResolvedDoc) := do
  match ← (describe? name : Lookup _) with
  | none => return none
  | some ancestor =>
    match commentOn ancestor subject with
    | none => return none
    | some (declaring, some raw) =>
      let doc ← (parseAfresh raw : Lookup _)
      return some (← resolveWith find (depth + 1) declaring subject doc)
    | some (_, none) => find (depth + 1) ancestor.name

theorem tryAncestor_eq (find : Nat → String → SearchM (Option ResolvedDoc)) (depth : Nat)
    (subject : Subject) (name : String) : tryAncestor parseAfresh find depth subject name =
      visit name >>= fun met => if met then pure none else lookAt find depth subject name := rfl

/-- **One ancestor**, given the search from the classes at and above it. -/
theorem lookAt_agrees (hk : Kept ix) (ht : Traced ix i) {name : String}
    (hcovers : Covers ix i (key name)) {h depth : Nat}
    {find : Nat → String → SearchM (Option ResolvedDoc)}
    (hdepth : ix.classes.contains (key name) = true → depth + 1 < maxDepth)
    (hfind : ix.classes.contains (key name) = true →
      ∀ className, Relation.ReflTransGen (Above ix.classes) (key className) (key name) →
        ∃ found s',
          Agrees i subject h (plainAbove subject · className)
            (find (depth + 1) className) s found s') :
    ∃ found s', Agrees i subject h (fun steps => plainOn (plainAbove subject steps) subject name)
      (lookAt find depth subject name) s found s' := by
  have hdescribe : Rests i (describe? name) (i.flattened.find? (key name)) :=
    describe?_of_covers hk.unmapped ht.table hcovers
  unfold lookAt plainOn
  cases hfound : i.flattened.find? (key name) with
  | none =>
    rw [hfound] at hdescribe
    exact ⟨none, s, agrees_none (hdescribe.run_lift.run_bind rfl) fun _ => hdescribe.bind rfl⟩
  | some ancestor =>
    rw [hfound] at hdescribe
    have hknown := ht.table.known _ _ hfound
    cases hcomment : commentOn ancestor subject with
    | none =>
      refine ⟨none, s, agrees_none (hdescribe.run_lift.run_bind ?_) fun _ => hdescribe.bind ?_⟩
      all_goals simp only [hcomment]; rfl
    | some comment =>
      obtain ⟨declaring, raw⟩ := comment
      cases raw with
      | some raw =>
        -- a comment is resolved from the class that declares it, which may be above the ancestor
        obtain ⟨found, s', hagrees⟩ :=
          hfind hknown declaring (ht.declaring hk.filed hfound hcomment)
        obtain ⟨r, s'', hrun, hissues, henough⟩ :=
          resolveWith_agrees (hdepth hknown) hagrees (Docblock.parse raw)
        refine ⟨some r, s'', hdescribe.run_lift.run_bind ?_, hissues,
          fun steps hsteps => hdescribe.bind ?_, nofun, nofun⟩
        · simp only [hcomment]
          have hparse : Rests i (parseAfresh raw) (Docblock.parse raw) := rfl
          exact hparse.run_lift.run_bind (hrun.run_bind rfl)
        · simp only [hcomment]
          exact (henough steps hsteps).bind rfl
      | none =>
        -- without a comment both searches go on above the ancestor
        have hkey := ht.key_name hk.filed hfound
        obtain ⟨found, s', hagrees⟩ := hfind hknown ancestor.name (by rw [hkey])
        refine ⟨found, s', hdescribe.run_lift.run_bind ?_, hagrees.issues,
          fun steps hsteps => hdescribe.bind ?_, fun hnone steps => hdescribe.bind ?_,
            hagrees.visited⟩
        all_goals simp only [hcomment]
        · exact hagrees.run
        · exact hagrees.enough steps hsteps
        · exact hagrees.never hnone steps

/-- An ancestor that was looked at before has nothing to give; one that was not is noted, with
those above it. -/
theorem tryAncestor_agrees (hk : Kept ix) (ht : Traced ix i) {name k : String}
    (habove : Above ix.classes (key name) k) (hcovers : Covers ix i (key name))
    (hacc : Acc (Above ix.classes) (key name)) (hs : Spent ix.classes i subject k s.visited)
    {h depth : Nat} {find : Nat → String → SearchM (Option ResolvedDoc)}
    (hdepth : ix.classes.contains (key name) = true → depth + 1 < maxDepth)
    (hfind : ix.classes.contains (key name) = true →
      ∀ className, Relation.ReflTransGen (Above ix.classes) (key className) (key name) →
        ∀ s, Spent ix.classes i subject (key className) s.visited →
          ∃ found s',
            Agrees i subject h (plainAbove subject · className)
              (find (depth + 1) className) s found s') :
    ∃ found s', Agrees i subject h (fun steps => plainOn (plainAbove subject steps) subject name)
      (tryAncestor parseAfresh find depth subject name) s found s' := by
  rw [tryAncestor_eq]
  by_cases hmet : Text.lower name ∈ s.visited
  · have hvisit : Rests i ((visit name).run s) (true, s) := by
      show (if s.visited.contains (Text.lower name) then _ else _ : Lookup _) i = _
      rw [if_pos (by simpa using hmet)]
      rfl
    exact ⟨none, s, agrees_none (hvisit.run_bind rfl) (hs name hmet (.single habove))⟩
  · let noted : Search := { s with visited := Text.lower name :: s.visited }
    have hvisit : Rests i ((visit name).run s) (false, noted) := by
      show (if s.visited.contains (Text.lower name) then _ else _ : Lookup _) i = _
      rw [if_neg (by simpa using hmet)]
      rfl
    -- from the classes above the search does not come back to this one, since there is no cycle
    have hspent : ∀ {className : String},
        Relation.ReflTransGen (Above ix.classes) (key className) (key name) →
        Spent ix.classes i subject (key className) noted.visited := by
      intro className hpath name' hname' hup
      rcases List.mem_cons.mp hname' with hlower | hold
      · rw [key_eq_of_lower hlower] at hup
        exact absurd (hup.trans_left hpath) (not_above_self hacc)
      · exact hs.above (hpath.tail habove) name' hold hup
    obtain ⟨found, s', hagrees⟩ := lookAt_agrees (s := noted) hk ht hcovers hdepth
      fun hknown className hpath => hfind hknown className hpath noted (hspent hpath)
    refine ⟨found, s', hvisit.run_bind hagrees.run, hagrees.issues, hagrees.enough, hagrees.never,
      fun hnone v hv => ?_⟩
    rcases hagrees.visited hnone v hv with hnoted | hbarren
    · rcases List.mem_cons.mp hnoted with rfl | hold
      · -- the ancestor itself is noted in lower case, so every spelling of its name is spent
        refine Or.inr fun name' hlower => ?_
        exact barren_of_lower hk.unmapped ht.table hcovers hlower (hagrees.never hnone)
      · exact Or.inl hold
    · exact Or.inr hbarren

/-- **The search above a class**, with `h` as a bound on the ways up. -/
theorem findAbove_agrees (hk : Kept ix) (ht : Traced ix i) (h : Nat) :
    ∀ {className : String} {bound depth : Nat}, Covers ix i (key className) →
      ¬ Ascent ix.classes h (key className) →
      h ≤ bound → depth + h ≤ maxDepth →
        ∀ s, Spent ix.classes i subject (key className) s.visited → ∃ found s',
        Agrees i subject h (plainAbove subject · className)
          (findAbove parseAfresh subject bound depth className) s found s' := by
  -- every step up lowers the bound on the ways up by one, and the step counter rises by one
  induction h with
  | zero => intro className bound depth _ hshort; exact absurd trivial hshort
  | succ h ih =>
    intro className bound depth hcovers hshort hbound hdepth s hs
    obtain ⟨bound, rfl⟩ : ∃ b, bound = b + 1 := ⟨bound - 1, by omega⟩
    have hdescribe : Rests i (describe? className) (i.flattened.find? (key className)) :=
      describe?_of_covers hk.unmapped ht.table hcovers
    cases hfound : i.flattened.find? (key className) with
    | none =>
      rw [hfound] at hdescribe
      refine ⟨none, s, agrees_none (hdescribe.run_lift.run_bind rfl) fun steps => ?_⟩
      cases steps with
      | zero => rfl
      | succ steps => exact hdescribe.bind rfl
    | some c =>
      rw [hfound] at hdescribe
      have hacc := (ht.memory _ _ hfound).1
      have htry : ∀ name ∈ c.ancestors.map Prod.fst, ∀ s,
          Spent ix.classes i subject (key className) s.visited →
          ∃ found s', Agrees i subject h
            (fun steps => plainOn (plainAbove subject steps) subject name)
            (tryAncestor parseAfresh (findAbove parseAfresh subject bound) depth subject name)
            s found s' := by
        intro name hname s hs
        obtain ⟨a, ha, rfl⟩ := List.mem_map.mp hname
        have habove := ht.above hfound ha
        have hcovers' := hcovers.above (.single habove)
        have hshort' : ix.classes.contains (key a.1) = true → ¬ Ascent ix.classes h (key a.1) :=
          fun hknown hup => hshort ⟨_, habove, hknown, hup⟩
        refine tryAncestor_agrees hk ht habove hcovers' (hacc.inv habove) hs (fun hknown => ?_) ?_
        · -- the ancestor itself is a way of no steps
          have hpos : h ≠ 0 := by
            rintro rfl
            exact hshort' hknown trivial
          omega
        · intro hknown name hpath s hs
          refine ih (hcovers'.above hpath) (fun hup => ?_) (by omega) (by omega) s hs
          exact hshort' hknown (hup.below hpath)
      obtain ⟨found, s', hagrees⟩ :=
        firstOf_agrees (fun steps => plainOn (plainAbove subject steps) subject) _ _ htry s hs
      refine ⟨found, s', hdescribe.run_lift.run_bind hagrees.run, hagrees.issues,
        fun steps hsteps => ?_, fun hnone steps => ?_, hagrees.visited⟩
      · obtain ⟨steps, rfl⟩ : ∃ n, steps = n + 1 := ⟨steps - 1, by omega⟩
        exact hdescribe.bind (hagrees.enough steps (by omega))
      · cases steps with
        | zero => rfl
        | succ steps => exact hdescribe.bind (hagrees.never hnone steps)

/-! ## The first class -/

theorem findAbove_congr {className : String} (h : describe? className ix = describe? className i)
    (bound depth : Nat) :
    (findAbove parseAfresh subject (bound + 1) depth className).run s ix =
      (findAbove parseAfresh subject (bound + 1) depth className).run s i := by
  rw [findAbove, StateT.run_bind]
  exact bind_apply_eq (bind_apply_eq (f := fun found => pure (found, s)) h) _

theorem resolve_congr {className : String} (hbound : i.bound = ix.bound)
    (h : describe? className ix = describe? className i) (comment : Option String) :
    (resolve className subject comment ix).1 = (resolve className subject comment i).1 := by
  cases comment with
  | none => rfl
  | some raw =>
    rw [resolve_some, get_bind, get_bind, hbound, resolveWith]
    split
    · rfl
    · obtain ⟨bound, hpos⟩ : ∃ b, 2 * ix.bound = b + 1 :=
        ⟨2 * ix.bound - 1, by unfold Index.bound; omega⟩
      simp only [hpos, show 0 < maxDepth by decide, if_true]
      rw [StateT.run_bind]
      exact congrArg Prod.fst (bind_apply_eq (bind_apply_eq (findAbove_congr h bound 0) _) _)

theorem plainResolve_congr {className : String}
    (h : describe? className ix = describe? className i) (steps : Nat) (comment : Option String) :
    (plainResolve (steps + 1) className subject comment ix).1 =
      (plainResolve (steps + 1) className subject comment i).1 := by
  cases comment with
  | none => rfl
  | some raw =>
    simp only [plainResolve, settle]
    split
    · rfl
    · exact congrArg Prod.fst (bind_apply_eq (bind_apply_eq h _) _)

/--
Where no way up from a class has 20 steps, the search that remembers the ancestors it looked at and
counts its steps gives what the plain search gives, documentation and issues, for every comment.
-/
theorem resolve_eq_plain {project : Option Project} (hu : Unmapped { project })
    (hreach : Reached project ix) {className : String}
    (hshort : ¬ Ascent ix.classes 20 (key className)) (subject : Subject) (comment : Option String)
    {steps : Nat} (hsteps : 20 ≤ steps) :
    (resolve className subject comment ix).1 =
      (plainResolve steps className subject comment ix).1 := by
  have hk := kept_reached hu hreach
  have hacc := acc_of_not_ascent hshort
  obtain ⟨hcovers, hagain⟩ := describe?_again hk (closed_reached hu hreach) hacc
  have ht := (describe?_traced hk.unmapped hk.filed className ix hk.traced).2
  obtain ⟨steps, rfl⟩ : ∃ n, steps = n + 1 := ⟨steps - 1, by omega⟩
  -- the class itself is described first by either search; from then on nothing changes
  rw [resolve_congr ht.table.bound hagain, plainResolve_congr hagain]
  generalize (describe? className ix).2 = i at hcovers ht
  cases comment with
  | none => rfl
  | some raw =>
    -- no way up is longer than the number of classes, which the bound of the search exceeds
    obtain ⟨h, hshort, hdepth, hbound⟩ :
        ∃ h, ¬ Ascent ix.classes h (key className) ∧ h ≤ 20 ∧ h ≤ 2 * i.bound := by
      by_cases hsmall : 20 ≤ i.bound
      · exact ⟨20, hshort, le_rfl, by omega⟩
      · exact ⟨i.bound, fun hup => lt_irrefl _ (hup.lt_of_acc hacc (Trail.start ht.table.room _)),
          by omega, by omega⟩
    have hspent : Spent ix.classes i subject (key className) [Text.lower className] := by
      intro name hname hup
      rw [key_eq_of_lower (List.mem_singleton.mp hname)] at hup
      exact absurd hup (not_above_self hacc)
    have hdepth : 0 + h ≤ maxDepth := by simpa [maxDepth] using hdepth
    obtain ⟨found, s', hagrees⟩ := findAbove_agrees hk ht h hcovers hshort hbound hdepth
      { visited := [Text.lower className] } hspent
    obtain ⟨r, s'', hrun, hissues, henough⟩ :=
      resolveWith_agrees (by decide) hagrees (Docblock.parse raw)
    have hresolve : Rests i (resolve className subject (some raw)) (r.1, s''.issues) := by
      rw [resolve_some]
      exact Rests.bind (rfl : Rests i get i) (hrun.bind rfl)
    have hplain : Rests i (plainResolve (steps + 1) className subject (some raw)) r :=
      henough (steps + 1) (by omega)
    rw [hresolve, hplain, hissues]
    rfl

/-- `R` is reached twice and has nothing to give, so the marker of `B` stays as it is. -/
theorem resolve_eq_plain_diamond :
    let ix := ({} : Index).add "a.php"
      "<?php interface R{function f();} interface A extends R{}
      interface B extends R{/** {@inheritDoc} */function f();}
      class C implements A,B{}"
    let comment := some "/** {@inheritDoc} */"
    ¬ Ascent ix.classes 20 (key "C") ∧
      (resolve "C" (.member "f" .method) comment ix).1 =
          (plainResolve 20 "C" (.member "f" .method) comment ix).1 := by
  intro ix comment
  have hu : Unmapped { project := none } := by intro p hp; simp at hp
  have hshort : ¬ Ascent ix.classes 20 (key "C") := by decide +kernel
  exact ⟨hshort, resolve_eq_plain hu (.add _ _ .new) hshort _ _ le_rfl⟩

end Inherit

end ClassDocs

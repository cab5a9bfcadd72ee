import ClassDocs.Proofs.Provenance

/-!
# All classes above are remembered

Reading a flattened class changes what the index remembers. On a class graph without cycles this
happens once on the way up: flattening a class flattens all known classes above it and remembers
them (`flatten_laid`), so what is remembered is closed upwards in every state (`closed_reached`).
A class that was described is described as before from then on, and so are all classes above it,
with the index staying as it is (`describe?_of_covers`, `describe?_again`).
-/

namespace ClassDocs

namespace Index

variable {ix : Index} {α β σ : Type}

/-! ## Lookups from one state to the next -/

/-- From a state in `V` a lookup comes to a result and a state in `Q`. -/
def Leads (V : Index → Prop) (m : Lookup α) (Q : α → Index → Prop) : Prop :=
  ∀ i, V i → Q (m i).1 (m i).2

theorem Leads.bind {V : Index → Prop} {m : Lookup α} {f : α → Lookup β} {Q : α → Index → Prop}
    {R : β → Index → Prop} (hm : Leads V m Q) (hf : ∀ a, Leads (Q a) (f a) R) :
    Leads V (m >>= f) R :=
  fun i hi => hf _ _ (hm i hi)

theorem Leads.foldlM {f : σ → α → Lookup σ} {R : List α → σ → Index → Prop} :
    ∀ (l : List α), (∀ s a rest, a ∈ l → Leads (R (a :: rest) s) (f s a) (R rest)) →
      ∀ s, Leads (R l s) (l.foldlM f s) (R []) := by
  intro l
  induction l with
  | nil => intro _ s i hi; exact hi
  | cons a l ih =>
    intro h s
    rw [List.foldlM_cons]
    refine (h s a l (by simp)).bind fun s' => ?_
    exact ih (fun s a rest ha => h s a rest (List.mem_cons_of_mem _ ha)) s'

/-! ## A walk -/

theorem contains_insert {γ : Type} (t : Table γ) (k : String) (v : γ) (k' : String) :
    (t.insert k v).contains k' = true ↔ k' = k ∨ t.contains k' = true := by
  rw [Table.contains, Table.find?_insert, Table.contains]
  by_cases hk : k' = k <;> simp [hk]

/-- With a class all known classes above it are remembered. -/
def Closed (classes : Table ClassDecl) (i : Index) : Prop :=
  ∀ k, i.flattened.contains k = true → ∀ a, Above classes a k → classes.contains a = true →
    i.flattened.contains a = true

/-- What a walk from the class of key `k` comes to and leaves behind. -/
structure Laid (ix i : Index) (k : String) (r : Option ClassDecl × Bool) (j : Index) : Prop where
  table : SameTable ix j
  closed : Closed ix.classes j
  grows : ∀ k', i.flattened.contains k' = true → j.flattened.contains k' = true
  answer : r.2 = false → j.flattened.find? k = r.1
  kept : r.2 = false → ix.classes.contains k = true → j.flattened.contains k = true
  acyclic : Acc (Above ix.classes) k → r.2 = false

/-- The loop over the ancestors: those behind are remembered, unless a cycle was met. -/
structure Climbed (ix i : Index) (k : String) (c : ClassDecl) (left : List (String × Bool))
    (cyclic : Bool) (j : Index) : Prop where
  table : SameTable ix j
  closed : Closed ix.classes j
  grows : ∀ k', i.flattened.contains k' = true → j.flattened.contains k' = true
  kept : cyclic = false → ∀ a ∈ c.ancestors, a ∈ left ∨
    (ix.classes.contains (key a.1) = true → j.flattened.contains (key a.1) = true)
  acyclic : Acc (Above ix.classes) k → cyclic = false

theorem Climbed.step {i j j' : Index} {k : String} {c : ClassDecl}
    (hc : ix.classes.find? k = some c) {a : String × Bool} {left : List (String × Bool)}
    (ha : a ∈ c.ancestors) {cyclic : Bool} (h : Climbed ix i k c (a :: left) cyclic j)
    {r : Option ClassDecl × Bool} (hlaid : Laid ix j (key a.1) r j') :
    Climbed ix i k c left (cyclic || r.2) j' where
  table := hlaid.table
  closed := hlaid.closed
  grows := fun k' hk' => hlaid.grows k' (h.grows k' hk')
  kept := by
    intro hflag a' ha'
    obtain ⟨hbefore, hnow⟩ := Bool.or_eq_false_iff.mp hflag
    rcases h.kept hbefore a' ha' with hleft | hkept
    -- what the loop has passed stays remembered, and the ancestor it was at is remembered now
    · rcases List.mem_cons.mp hleft with rfl | hleft
      · exact Or.inr (hlaid.kept hnow)
      · exact Or.inl hleft
    · exact Or.inr fun hknown => hlaid.grows _ (hkept hknown)
  acyclic := by
    intro hacc
    rw [h.acyclic hacc, hlaid.acyclic (hacc.inv ⟨c, hc, a, ha, rfl⟩)]
    rfl

/-- The end of a walk that met no cycle. -/
theorem Climbed.remember {i j : Index} {k : String} {c : ClassDecl}
    (hc : ix.classes.find? k = some c) (h : Climbed ix i k c [] false j) (m : ClassDecl) :
    Laid ix i k (some m, false) { j with flattened := j.flattened.insert k m } where
  table := (remember_keeps (contains_of_find? hc) m j h.table).2
  closed := by
    intro k' hk' a habove hknown
    refine (contains_insert _ _ _ _).mpr (Or.inr ?_)
    rcases (contains_insert _ _ _ _).mp hk' with rfl | hold
    · -- right above the new entry are its ancestors, and the loop has passed them all
      obtain ⟨c', hc', ancestor, hancestor, rfl⟩ := habove
      obtain rfl := Option.some.inj (hc.symm.trans hc')
      exact ((h.kept rfl ancestor hancestor).resolve_left List.not_mem_nil) hknown
    · exact h.closed k' hold a habove hknown
  grows := fun k' hk' => (contains_insert _ _ _ _).mpr (Or.inr (h.grows k' hk'))
  answer := fun _ => Table.find?_insert_self _ _ _
  kept := fun _ _ => (contains_insert _ _ _ _).mpr (Or.inl rfl)
  acyclic := fun _ => rfl

theorem flatten_of_remembered {i : Index} {name : String} {m : ClassDecl}
    (h : i.flattened.find? (key name) = some m) (bound : Nat) (stack : List String) :
    flatten (bound + 1) stack name i = ((some m, false), i) := by
  simp only [flatten]
  rw [get_bind, h]
  rfl

theorem flatten_of_unknown {i : Index} (hu : Unmapped i) {name : String}
    (h : i.flattened.find? (key name) = none) (hunknown : i.classes.find? (key name) = none)
    (bound : Nat) (stack : List String) :
    flatten (bound + 1) stack name i = ((none, false), i) := by
  simp only [flatten]
  rw [get_bind, h]
  dsimp only
  rw [own_bind hu, hunknown]
  rfl

/-- **A walk remembers what it has flattened, with all that is above.** -/
theorem flatten_laid (hu : Unmapped ix) (bound : Nat) :
    ∀ (stack : List String) (name : String) {i : Index},
    Trail (Above ix.classes) ix.classes bound stack (key name) → SameTable ix i →
      Closed ix.classes i →
    Laid ix i (key name) (flatten bound stack name i).1 (flatten bound stack name i).2 := by
  induction bound with
  | zero =>
    intro stack name i htrail
    obtain ⟨n, hn⟩ := htrail.pos
    omega
  | succ bound ih =>
    intro stack name i htrail htable hclosed
    cases hmem : i.flattened.find? (key name) with
    | some m =>
      rw [flatten_of_remembered hmem]
      refine ⟨htable, hclosed, fun _ => id, fun _ => hmem, fun _ _ => ?_, fun _ => rfl⟩
      rw [Table.contains, hmem]
      rfl
    | none =>
      cases hc : ix.classes.find? (key name) with
      | none =>
        rw [flatten_of_unknown (htable.unmapped hu) hmem (htable.classes ▸ hc)]
        refine ⟨htable, hclosed, fun _ => id, fun _ => hmem, fun _ hknown => ?_, fun _ => rfl⟩
        rw [Table.contains, hc] at hknown
        cases hknown
      | some c =>
        simp only [flatten]
        rw [get_bind, hmem]
        dsimp only
        rw [own_bind (htable.unmapped hu), htable.classes, hc]
        by_cases hk : key name ∈ stack
        · -- a class that is met on its own way up reaches a cycle
          have hcon : stack.contains (key name) = true := by simpa using hk
          simp only [hcon, if_true]
          refine ⟨htable, hclosed, fun _ => id, fun hflag => ?_, fun hflag => ?_, fun hacc => ?_⟩
          · exact absurd hflag.symm Bool.false_ne_true
          · exact absurd hflag.symm Bool.false_ne_true
          · exact absurd hk (htrail.not_mem hacc)
        · have hcon : stack.contains (key name) = false := by simpa using hk
          simp only [hcon, Bool.false_eq_true, if_false]
          -- traits are read and nothing is remembered for them
          have htraits : Leads (· = i) (addTraits traitDepth (key name :: stack) none c.traits c)
              fun _ j => Climbed ix i (key name) c c.ancestors false j := by
            have hown : ∀ name, Ensures (· = i) (own name) (· = ix.classes.find? (key name)) := by
              rintro name j rfl
              rw [own_of_unmapped (htable.unmapped hu), htable.classes]
              exact ⟨rfl, rfl⟩
            intro j hj
            rw [(addTraits_reads hown traitDepth (key name :: stack) none c.traits c j hj).2]
            exact ⟨htable, hclosed, fun _ => id, fun _ a ha => Or.inl ha, fun _ => rfl⟩
          refine Leads.bind (R := Laid ix i (key name)) htraits (fun merged => ?_) i rfl
          refine Leads.bind
            (Leads.foldlM (R := fun left s j => Climbed ix i (key name) c left s.2 j) c.ancestors
              (fun sofar a left ha j hj => ?_) (merged, false)) fun result j hj => ?_
          · have hstep := htrail.step (contains_of_find? hc) hk ⟨c, hc, a, ha, rfl⟩
            exact hj.step hc ha (ih _ a.1 hstep hj.table hj.closed)
          · obtain ⟨merged, cyclic⟩ := result
            cases cyclic with
            | true =>
              refine ⟨hj.table, hj.closed, hj.grows, fun hflag => ?_, fun hflag => ?_, hj.acyclic⟩
              · exact absurd hflag.symm Bool.false_ne_true
              · exact absurd hflag.symm Bool.false_ne_true
            | false => exact hj.remember hc merged

theorem describe?_laid (hu : Unmapped ix) (name : String) {i : Index} (htable : SameTable ix i)
    (hclosed : Closed ix.classes i) :
    ∃ cyclic, Laid ix i (key name) ((describe? name i).1, cyclic) (describe? name i).2 :=
  ⟨_, flatten_laid hu i.bound [] name (Trail.start htable.room _) htable hclosed⟩

/-! ## Every index -/

variable {project : Option Project}

theorem closed_reached (hu : Unmapped { project }) (h : Reached project ix) :
    Closed ix.classes ix := by
  have hnothing : ∀ ix : Index, ix.flattened = {} → Closed ix.classes ix := by
    intro ix hempty k hk
    rw [hempty] at hk
    cases hk
  refine h.holds (P := fun ix => Closed ix.classes ix) ?_ ?_ ?_ ?_
  · exact fun _ => hnothing _ rfl
  · intro ix file content _
    exact hnothing _ (by unfold Index.add addDecls; rfl)
  · intro ix name hreach hclosed
    rw [own_of_unmapped (kept_reached hu hreach).unmapped]
    exact hclosed
  · intro ix hreach hclosed
    have hk := kept_reached hu hreach
    refine ⟨fun i => SameTable ix i ∧ Closed ix.classes i, ⟨hk.traced.table, hclosed⟩,
      fun i hi => ?_, ?_⟩
    · rw [hi.1.classes]
      exact hi.2
    · intro name i hi
      obtain ⟨cyclic, hlaid⟩ := describe?_laid hk.unmapped name hi.1 hi.2
      exact ⟨trivial, hlaid.table, hlaid.closed⟩

/-- All that is known of the class of key `k` and above it is remembered. -/
def Covers (ix i : Index) (k : String) : Prop :=
  ∀ a, Relation.ReflTransGen (Above ix.classes) a k → ix.classes.contains a = true →
    i.flattened.contains a = true

theorem Covers.above {i : Index} {k a : String} (h : Covers ix i k)
    (ha : Relation.ReflTransGen (Above ix.classes) a k) : Covers ix i a :=
  fun b hb => h b (hb.trans ha)

theorem covers_of_closed {i : Index} (hclosed : Closed ix.classes i) {k : String}
    (hk : ix.classes.contains k = true → i.flattened.contains k = true) : Covers ix i k := by
  intro a hpath
  induction hpath using Relation.ReflTransGen.head_induction_on with
  | refl => exact hk
  | @head a b hab _ ih =>
    -- a class with something above it is known, so it is remembered itself
    obtain ⟨c, hc, -⟩ := id hab
    exact hclosed b (ih (contains_of_find? hc)) a hab

/-- Where all is remembered a class is described as remembered, and nothing changes. -/
theorem describe?_of_covers (hu : Unmapped ix) {i : Index} (htable : SameTable ix i)
    {name : String} (h : Covers ix i (key name)) :
    describe? name i = (i.flattened.find? (key name), i) := by
  have hflatten : flatten i.bound [] name i = ((i.flattened.find? (key name), false), i) := by
    unfold Index.bound
    cases hmem : i.flattened.find? (key name) with
    | some m => exact flatten_of_remembered hmem _ _
    | none =>
      refine flatten_of_unknown (htable.unmapped hu) hmem ?_ _ _
      rw [htable.classes, ← Option.not_isSome_iff_eq_none]
      intro hknown
      have hkept := h _ .refl hknown
      rw [Table.contains, hmem] at hkept
      cases hkept
  show (let r := flatten i.bound [] name i; (r.1.1, r.2)) = _
  rw [hflatten]

/-- A class is described once more as before, if no cycle is reached from it. -/
theorem describe?_again (hk : Kept ix) (hclosed : Closed ix.classes ix) {name : String}
    (hacc : Acc (Above ix.classes) (key name)) : Covers ix (describe? name ix).2 (key name) ∧
      describe? name ix = describe? name (describe? name ix).2 := by
  obtain ⟨cyclic, hlaid⟩ := describe?_laid hk.unmapped name hk.traced.table hclosed
  have hflag := hlaid.acyclic hacc
  have hcovers := covers_of_closed hlaid.closed (hlaid.kept hflag)
  refine ⟨hcovers, ?_⟩
  rw [describe?_of_covers hk.unmapped hlaid.table hcovers, hlaid.answer hflag]
  rfl

end Index

end ClassDocs

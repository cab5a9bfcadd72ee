import ClassDocs.Inherit
import ClassDocs.Proofs.Coherence
import ClassDocs.Proofs.FreeText

/-!
# The chain of inherited documentation

A search goes through many ancestors and most of them lead to nothing, but only the one whose
comment is taken leaves a trace. `Settled` says how the documentation that a search comes to is
made up: a comment without a marker stands for itself, one whose marker finds no ancestor keeps it
and is reported, and any other is filled with documentation that was settled further up. A search
that comes to nothing reports nothing (`findAbove_comes`).

All that there is to say about a chain is then said by induction on how it was settled: which of
its comments ask for a text, what is reported, and how long it can get. The class graph plays no
part in it.
-/

namespace ClassDocs

/-- Whether the comment asks for an ancestor's text. -/
def DocText.hasMarker (d : DocText) : Bool := d.doc.any Docblock.hasMarker

namespace Inherit

open Index

variable {α β : Type} {subject : Subject} {depth : Nat} {doc : Docblock} {found r : ResolvedDoc}
  {issues : List Issue}

/-! ## Searches and the issues they add -/

/-- From every state a search comes to a result and adds issues that go with it. -/
def Comes (m : SearchM α) (Q : α → List Issue → Prop) : Prop :=
  ∀ s i, ∃ added, (m.run s i).1.2.issues = s.issues ++ added ∧ Q (m.run s i).1.1 added

theorem Comes.pure {a : α} {Q : α → List Issue → Prop} (h : Q a []) : Comes (pure a) Q :=
  fun s _ => ⟨[], (List.append_nil s.issues).symm, h⟩

theorem Comes.bind {m : SearchM α} {f : α → SearchM β} {Q : α → List Issue → Prop}
    {R : β → List Issue → Prop} (hm : Comes m Q)
    (hf : ∀ a added, Q a added → Comes (f a) fun b more => R b (added ++ more)) :
    Comes (m >>= f) R := by
  intro s i
  obtain ⟨added, hadded, hQ⟩ := hm s i
  obtain ⟨more, hmore, hR⟩ := hf _ added hQ (m.run s i).1.2 (m.run s i).2
  refine ⟨added ++ more, ?_, hR⟩
  rw [← List.append_assoc, ← hadded]
  exact hmore

/-- Questions to the index add no issues. -/
theorem Comes.lift {m : Lookup α} {Q : α → List Issue → Prop} (h : ∀ a, Q a []) :
    Comes (m : SearchM α) Q :=
  fun s _ => ⟨[], (List.append_nil s.issues).symm, h _⟩

theorem visit_comes (name : String) : Comes (visit name) fun _ added => added = [] := by
  intro s i
  unfold visit
  simp only [StateT.run]
  split
  · exact ⟨[], (List.append_nil s.issues).symm, rfl⟩
  · exact ⟨[], (List.append_nil s.issues).symm, rfl⟩

/-! ## What a search settles on -/

/--
How documentation comes about, and the issues met on the way to it. `depth` counts the steps that
led to the comment; the comment that fills it was reached by more steps.
-/
inductive Settled (subject : Subject) : Nat → ResolvedDoc → List Issue → Prop where
  | plain {depth : Nat} {doc : Docblock} :
      doc.hasMarker = false → Settled subject depth (literal doc) []
  | unresolved {depth : Nat} {doc : Docblock} (className : String) : doc.hasMarker = true →
      Settled subject depth (literal doc) [.unresolvedInherit (subject.label className)]
  | filled {depth above : Nat} {doc : Docblock} {found : ResolvedDoc} {issues : List Issue} :
      doc.hasMarker = true →
      depth < maxDepth → depth < above → Settled subject above found issues →
      Settled subject depth (filled doc found) issues

/-- What a search above a class comes to: nothing, and nothing is reported, or documentation from
further up. -/
def Sought (subject : Subject) (depth : Nat) : Option ResolvedDoc → List Issue → Prop
  | none, issues => issues = []
  | some r, issues => ∃ above, depth < above ∧ Settled subject above r issues

theorem Sought.lower {found : Option ResolvedDoc} (h : Sought subject (depth + 1) found issues) :
    Sought subject depth found issues := by
  cases found with
  | none => exact h
  | some r =>
    obtain ⟨above, hdepth, hsettled⟩ := h
    exact ⟨above, by omega, hsettled⟩

variable {find : Nat → String → SearchM (Option ResolvedDoc)}

/-- A comment is settled, if the search above its class comes to what it should. -/
theorem resolveWith_comes (hfind : ∀ depth name, Comes (find depth name) (Sought subject depth))
    (depth : Nat) (className : String) (doc : Docblock) :
    Comes (resolveWith find depth className subject doc) fun r issues =>
      r.doc = some doc ∧ Settled subject depth r issues := by
  unfold resolveWith
  cases hmarker : doc.hasMarker with
  | false => exact Comes.pure ⟨rfl, .plain hmarker⟩
  | true =>
    -- a marker beyond the last step is treated like one above which nothing was found
    have hnone : Comes (do
        modify fun s =>
          { s with issues := s.issues ++ [.unresolvedInherit (subject.label className)] }
        return literal doc) fun r issues => r.doc = some doc ∧ Settled subject depth r issues :=
      fun s _ =>
        ⟨[.unresolvedInherit (subject.label className)], rfl, rfl, .unresolved className hmarker⟩
    simp only [Bool.not_true, Bool.false_eq_true, if_false]
    split
    · rename_i hdepth
      refine (hfind depth className).bind fun ancestor added hsought => ?_
      cases ancestor with
      | some found =>
        obtain ⟨above, habove, hsettled⟩ := hsought
        exact Comes.pure
          ⟨rfl, by rw [List.append_nil]; exact .filled hmarker hdepth habove hsettled⟩
      | none =>
        obtain rfl := hsought
        exact hnone
    · rw [pure_bind]
      exact hnone

/-- One ancestor: it was looked at before, or its comment is settled, or the search goes on above
it. -/
theorem tryAncestor_comes (hfind : ∀ depth name, Comes (find depth name) (Sought subject depth))
    (depth : Nat) (name : String) :
    Comes (tryAncestor parseAfresh find depth subject name) (Sought subject depth) := by
  refine (visit_comes name).bind fun met added hadded => ?_
  obtain rfl := hadded
  split
  · exact Comes.pure rfl
  · refine Comes.bind (Comes.lift (Q := fun _ added => added = []) fun _ => rfl)
      fun described added hadded => ?_
    obtain rfl := hadded
    cases described with
    | none => exact Comes.pure rfl
    | some ancestor =>
      dsimp only
      split
      · exact Comes.pure rfl
      · refine Comes.bind (Comes.lift (Q := fun _ added => added = []) fun _ => rfl)
          fun doc added hadded => ?_
        obtain rfl := hadded
        refine (resolveWith_comes hfind (depth + 1) _ _).bind fun r added hr => Comes.pure ?_
        exact ⟨depth + 1, Nat.lt_succ_self depth, by simpa using hr.2⟩
      · intro s i
        obtain ⟨added, hadded, hsought⟩ := hfind (depth + 1) ancestor.name s i
        exact ⟨added, hadded, hsought.lower⟩

/-- The first answer is taken, and those that were tried before it have reported nothing. -/
theorem firstOf_comes {tryOne : String → SearchM (Option ResolvedDoc)}
    (h : ∀ name, Comes (tryOne name) (Sought subject depth)) (names : List String) :
    Comes (firstOf tryOne names) (Sought subject depth) := by
  induction names with
  | nil => exact Comes.pure rfl
  | cons name names ih =>
    refine (h name).bind fun ancestor added hsought => ?_
    cases ancestor with
    | some found => exact Comes.pure (by rw [List.append_nil]; exact hsought)
    | none =>
      obtain rfl := hsought
      exact ih

/-- **A search reports nothing unless it finds documentation**, and what it finds is settled. -/
theorem findAbove_comes (subject : Subject) (bound : Nat) :
    ∀ (depth : Nat) (className : String),
      Comes (findAbove parseAfresh subject bound depth className) (Sought subject depth) := by
  induction bound with
  | zero => intro depth className; exact Comes.pure rfl
  | succ bound ih =>
    intro depth className
    refine Comes.bind (Comes.lift (Q := fun _ added => added = []) fun _ => rfl)
      fun described added hadded => ?_
    obtain rfl := hadded
    cases described with
    | none => exact Comes.pure rfl
    | some c => exact firstOf_comes (tryAncestor_comes ih depth) _

/-- Resolving a comment is one search, that starts with the class noted as looked at. -/
theorem resolve_apply (className : String) (subject : Subject) (raw : String) (ix : Index) :
    (resolve className subject (some raw) ix).1 =
      (((resolveWith (findAbove parseAfresh subject (2 * ix.bound)) 0 className subject
          (Docblock.parse raw)).run { visited := [Text.lower className] } ix).1.1,
        ((resolveWith (findAbove parseAfresh subject (2 * ix.bound)) 0 className subject
          (Docblock.parse raw)).run { visited := [Text.lower className] } ix).1.2.issues) := by
  rw [resolve_some, get_bind]
  generalize Docblock.parse raw = doc, 2 * ix.bound = bound
  rfl

/-- The documentation of a comment is settled from the class that has the comment. -/
theorem resolve_settled (className : String) (subject : Subject) (raw : String) (ix : Index) :
    (resolve className subject (some raw) ix).1.1.doc = some (Docblock.parse raw) ∧
      Settled subject 0 (resolve className subject (some raw) ix).1.1
        (resolve className subject (some raw) ix).1.2 := by
  obtain ⟨added, hadded, hdoc, hsettled⟩ :=
    resolveWith_comes (findAbove_comes subject (2 * ix.bound)) 0 className
    (Docblock.parse raw) { visited := [Text.lower className] } ix
  rw [resolve_apply]
  generalize (resolveWith _ _ _ _ _ : SearchM _).run _ ix = run at hadded hdoc hsettled ⊢
  rw [List.nil_append] at hadded
  rw [hadded]
  exact ⟨hdoc, hsettled⟩

/-! ## The chain -/

theorem chain_literal (doc : Docblock) : (literal doc).chain = [(literal doc).toDocText] := rfl

theorem chain_filled (doc : Docblock) (found : ResolvedDoc) :
    (filled doc found).chain = (filled doc found).toDocText :: found.chain := rfl

/-- Every comment before the last one was filled, so it has a marker. The last one was not; it has
its text as written, and is reported if it has a marker too. -/
theorem Settled.exists_last (h : Settled subject depth r issues) :
    ∃ before doc, r.chain = before ++ [(literal doc).toDocText] ∧
      (∀ d ∈ before, d.hasMarker = true) ∧ (doc.hasMarker = false ∧ issues = [] ∨
        doc.hasMarker = true ∧ ∃ className,
          issues = [.unresolvedInherit (subject.label className)]) := by
  induction h with
  | @plain _ doc hmarker => exact ⟨[], doc, chain_literal doc, by simp, .inl ⟨hmarker, rfl⟩⟩
  | @unresolved _ doc className hmarker =>
    exact ⟨[], doc, chain_literal doc, by simp, .inr ⟨hmarker, className, rfl⟩⟩
  | @filled _ _ doc found _ hmarker _ _ _ ih =>
    obtain ⟨before, last, hchain, hbefore, hissues⟩ := ih
    refine ⟨(Inherit.filled doc found).toDocText :: before, last, ?_, ?_, hissues⟩
    · rw [chain_filled, hchain, List.cons_append]
    · exact List.forall_mem_cons.mpr ⟨hmarker, hbefore⟩

/-- A comment is filled only before the last step, and each time from at least one step further
up. -/
theorem Settled.length_chain_le (h : Settled subject depth r issues) :
    r.chain.length ≤ maxDepth - depth + 1 := by
  induction h with
  | plain => simp [chain_literal]
  | unresolved => simp [chain_literal]
  | filled _ hdepth habove _ ih =>
    rw [chain_filled, List.length_cons]
    omega

/-- What the documentation of a comment looks like, with the issues met on the way to it. -/
structure Chained (subject : Subject) (comment : Option String) (chain : List DocText)
    (issues : List Issue) :
    Prop where
  /-- The chain starts with the comment itself. -/
  first : chain.head?.map (·.doc) = some (comment.map Docblock.parse)
  /-- Every comment but the last one has a marker. -/
  marked : ∀ d ∈ chain.dropLast, d.hasMarker = true
  /-- At most one issue is met. -/
  once : issues.length ≤ 1
  /-- An unresolved marker is reported exactly if the last comment has a marker too. -/
  reported : (∃ className, issues = [.unresolvedInherit (subject.label className)]) ↔
    ∃ last, chain.getLast? = some last ∧ last.hasMarker = true
  /-- Nothing else is reported. -/
  silent : issues = [] ↔ ∃ last, chain.getLast? = some last ∧ last.hasMarker = false
  /-- The last comment has its own text, markers as written. -/
  literal : ∀ last doc, chain.getLast? = some last → last.doc = some doc →
    last.summary.toList = Text.trim (Docblock.writtenText doc.summary) ∧
      last.description.toList = Text.trim (Docblock.writtenText doc.description)
  short : chain.length ≤ 21

theorem chained_of_last {comment : Option String} {before : List DocText} {last : DocText}
    (hfirst : (before ++ [last]).head?.map (·.doc) = some (comment.map Docblock.parse))
    (hbefore : ∀ d ∈ before, d.hasMarker = true)
    (hissues : last.hasMarker = false ∧ issues = [] ∨
      last.hasMarker = true ∧ ∃ className, issues = [.unresolvedInherit (subject.label className)])
    (hliteral : ∀ doc, last.doc = some doc →
      last.summary.toList = Text.trim (Docblock.writtenText doc.summary) ∧
      last.description.toList = Text.trim (Docblock.writtenText doc.description))
    (hshort : (before ++ [last]).length ≤ 21) :
    Chained subject comment (before ++ [last]) issues := by
  have hlast : ∀ d, (before ++ [last]).getLast? = some d ↔ d = last := by simp [eq_comm]
  refine ⟨hfirst, by simpa using hbefore, ?_, ?_, ?_, fun d doc hd => ?_, hshort⟩
  · rcases hissues with ⟨-, rfl⟩ | ⟨-, className, rfl⟩
    · exact Nat.zero_le 1
    · exact Nat.le_refl 1
  · rcases hissues with ⟨hmarker, rfl⟩ | ⟨hmarker, className, rfl⟩
    · simp [hmarker]
    · exact iff_of_true ⟨className, rfl⟩ ⟨last, (hlast last).mpr rfl, hmarker⟩
  · rcases hissues with ⟨hmarker, rfl⟩ | ⟨hmarker, className, rfl⟩
    · exact iff_of_true rfl ⟨last, (hlast last).mpr rfl, hmarker⟩
    · simp [hmarker]
  · obtain rfl := (hlast d).mp hd
    exact hliteral doc

/--
On every class graph the documentation of a comment is a chain of at most 21 comments. All of them
but the last have a marker. The last one keeps its text as it was written, and if it has a marker
this is the one issue that is met.
-/
theorem resolve_chained (className : String) (subject : Subject) (comment : Option String)
    (ix : Index) :
    Chained subject comment (resolve className subject comment ix).1.1.chain
      (resolve className subject comment ix).1.2 := by
  cases comment with
  | none =>
    -- there is no comment and so no text
    show Chained subject none ([] ++ [({} : DocText)]) []
    exact chained_of_last rfl (List.forall_mem_nil _) (.inl ⟨rfl, rfl⟩) (by simp) (by simp)
  | some raw =>
    obtain ⟨hdoc, hsettled⟩ := resolve_settled className subject raw ix
    have hshort := hsettled.length_chain_le
    obtain ⟨before, doc, hchain, hbefore, hissues⟩ := hsettled.exists_last
    have hfirst : (resolve className subject (some raw) ix).1.1.chain.head?.map (·.doc) =
        some (some (Docblock.parse raw)) := congrArg some hdoc
    rw [hchain] at hfirst hshort ⊢
    refine chained_of_last hfirst hbefore hissues (fun doc' hdoc' => ?_) hshort
    obtain rfl := Option.some.inj hdoc'
    simp only [literal, Docblock.renderSpans_none, String.toList_ofList, and_self]

end Inherit

end ClassDocs

import ClassDocs.Proofs.TypePositions

/-!
# What types look like that are read

Whoever walks over a type that was read from a text may rely on its form (`WellFormed`): nothing is
a union of fewer than two types, a shape or a callable has a base that can open one, only fields
with a key are optional, and no text is empty.

The texts come from the tokens, and what is known of these is known of all tokens of an input
(`soundTokens_lexemes`). The rest is up to the readers. Each of them makes well-formed types out of
sound tokens if those that it calls do, so all of them do, by induction on the depth of calls
(`makersAt`).
-/

namespace ClassDocs.TypeExpr

open ClassDocs.Text

/-- A text that starts with a quote. -/
def StartsQuoted (text : String) : Prop :=
  text.toList.head? = some '\'' ∨ text.toList.head? = some '"'

/-- A field that may be missing has a key. -/
def KeyedIfOptional (field : ShapeField) : Prop := field.optional = true → field.key.isSome = true

/-- The form of the types that are read. -/
inductive WellFormed : TypeExpr → Prop where
  | name {text : String} : text ≠ "" → WellFormed (.name text)
  | quoted {written : String} : StartsQuoted written → WellFormed (.literal (.text written))
  | int {written : String} :
      written ≠ "" → '.' ∉ written.toList → WellFormed (.literal (.int written))
  | float {written : String} :
      written ≠ "" → '.' ∈ written.toList → WellFormed (.literal (.float written))
  | nullable {inner : TypeExpr} : WellFormed inner → WellFormed (.nullable inner)
  | union {members : List TypeExpr} :
      2 ≤ members.length → (∀ m ∈ members, WellFormed m) → WellFormed (.union members)
  | inter {members : List TypeExpr} :
      2 ≤ members.length → (∀ m ∈ members, WellFormed m) → WellFormed (.inter members)
  | array {element : TypeExpr} : WellFormed element → WellFormed (.array element)
  | generic {base : String} {params : List TypeExpr} : base ≠ "" → (∀ p ∈ params, WellFormed p) →
      WellFormed (.generic base params)
  | shape {base : String} {fields : List ShapeField} :
      lower base ∈ shapeBases → (∀ f ∈ fields, KeyedIfOptional f) →
      (∀ f ∈ fields, WellFormed f.value) → WellFormed (.shape base fields)
  | callable {base : String} {params : List TypeExpr} {result : Option TypeExpr} :
      lower base ∈ callableBases →
      (∀ p ∈ params, WellFormed p) → (∀ r ∈ result, WellFormed r) →
        WellFormed (.callable base params result)
  | conditional {yes no : TypeExpr} :
      WellFormed yes → WellFormed no → WellFormed (.conditional yes no)

/-! ## Tokens -/

/-- What the readers rely on: a name or a number is not empty, and a quoted text starts with a
quote. -/
def Token.IsSound : Token → Prop
  | .ident text | .number text => text ≠ ""
  | .quoted text => StartsQuoted text
  | .variable _ | .punct _ | .ellipsis | .other _ => True

theorem isSound_tokenAt (c : Char) (cs : List Char) : (tokenAt c cs).IsSound := by
  unfold tokenAt
  split
  · trivial
  split
  · rename_i hstart
    simp [Token.IsSound, nameAt, isNameChar_of_start hstart]
  split
  · trivial
  split
  · simp [Token.IsSound]
  split
  · rename_i hquote
    simpa [Token.IsSound, StartsQuoted] using hquote
  split <;> trivial

/-- Tokens that the readers can rely on. -/
def SoundTokens (ts : List Lexeme) : Prop := ∀ t ∈ ts, t.token.IsSound

theorem soundTokens_lexemes (input : List Char) : SoundTokens (lexemes input) := by
  have hscan : ∀ steps pos input, SoundTokens (scan steps pos input) := by
    intro steps pos input
    fun_induction scan steps pos input with
    | case1 | case2 => exact List.forall_mem_nil _
    | case3 _ _ _ _ _ ih => exact ih
    | case4 _ _ c cs _ _ _ _ ih => exact List.forall_mem_cons.mpr ⟨isSound_tokenAt c cs, ih⟩
  exact hscan _ 0 input

variable {ts : List Lexeme}

theorem SoundTokens.tail (h : SoundTokens ts) : SoundTokens ts.tail :=
  fun t ht => h t (List.mem_of_mem_tail ht)

theorem SoundTokens.peek (h : SoundTokens ts) {tok : Token} (hpeek : peek ts = some tok) :
    tok.IsSound := by
  obtain ⟨t, ht, rfl⟩ := Option.map_eq_some_iff.mp hpeek
  exact h t (List.mem_of_head? ht)

theorem SoundTokens.ite (h : SoundTokens ts) (cond : Bool) :
    SoundTokens (if cond then ts.tail else ts) := by
  cases cond
  · exact h
  · exact h.tail

theorem SoundTokens.dropPunct (h : SoundTokens ts) (c : Char) : SoundTokens (dropPunct c ts) :=
  h.ite (at? c ts)

theorem SoundTokens.dropVariance (h : SoundTokens ts) : SoundTokens (dropVariance ts) := by
  unfold TypeExpr.dropVariance
  split
  all_goals first | exact h | exact h.tail

theorem SoundTokens.dropParameterMarks (h : SoundTokens ts) :
    SoundTokens (dropParameterMarks ts) := by
  unfold TypeExpr.dropParameterMarks
  dsimp only
  refine SoundTokens.dropPunct ?_ '='
  split
  · exact ((h.dropPunct '&').ite _).tail
  · exact (h.dropPunct '&').ite _

/-! ## The readers -/

variable {α β : Type} {p : α → Prop} {q : β → Prop} {depth : Nat}

/-- What comes out, if anything does, has a property. -/
def Gives (p : α → Prop) (x : Except TypeError α) : Prop := ∀ a, x = .ok a → p a

theorem gives_ok {a : α} (h : p a) : Gives p (.ok a) := by
  rintro _ ⟨⟩
  exact h

theorem gives_error (e : TypeError) : Gives p (.error e) := by
  rintro _ ⟨⟩

theorem Gives.bind {x : Except TypeError α} {f : α → Except TypeError β} (h : Gives p x)
    (hf : ∀ a, x = .ok a → p a → Gives q (f a)) : Gives q (x >>= f) := by
  cases x with
  | error e => exact gives_error e
  | ok a => exact hf a rfl (h a rfl)

/-- A reader that makes only things with a property out of sound tokens. -/
def Makes (p : α → Prop) (reader : List Lexeme → Except TypeError (α × List Lexeme)) : Prop :=
  ∀ ⦃ts : List Lexeme⦄, SoundTokens ts → Gives (fun r => p r.1 ∧ SoundTokens r.2) (reader ts)

theorem makes_zero {reader : List Lexeme → Except TypeError (α × List Lexeme)}
    (h : ∀ ts, reader ts = .error (unexpected ts)) : Makes p reader := by
  intro ts _
  rw [h]
  exact gives_error _

theorem makes_done {a : α} (h : p a) : Makes p fun ts => .ok (a, ts) :=
  fun _ hts => gives_ok ⟨h, hts⟩

/-- A reader and what is done with its result. -/
theorem Makes.bind {reader : List Lexeme → Except TypeError (α × List Lexeme)}
    {next : α → List Lexeme → Except TypeError (β × List Lexeme)} (h : Makes p reader)
    (hnext : ∀ a, p a → Makes q (next a)) :
    Makes q fun ts => reader ts >>= fun r => next r.1 r.2 :=
  fun _ hts => (h hts).bind fun r _ hr => hnext r.1 hr.1 hr.2

theorem Makes.ite {yes no : List Lexeme → Except TypeError (α × List Lexeme)}
    {cond : List Lexeme → Bool} (hyes : Makes p yes) (hno : Makes p no) :
    Makes p fun ts => if cond ts then yes ts else no ts := by
  intro ts hts
  dsimp only
  split
  · exact hyes hts
  · exact hno hts

theorem Makes.tail {reader : List Lexeme → Except TypeError (α × List Lexeme)}
    (h : Makes p reader) :
    Makes p fun ts => reader ts.tail := fun _ hts => h hts.tail

theorem gives_expect (h : SoundTokens ts) (c : Char) : Gives SoundTokens (expect c ts) := by
  unfold expect
  split
  · exact gives_ok h.tail
  · exact gives_error _

theorem Makes.expect {reader : List Lexeme → Except TypeError (α × List Lexeme)}
    (h : Makes p reader) (c : Char) :
    Makes p fun ts => TypeExpr.expect c ts >>= fun ts => reader ts :=
  fun _ hts => (gives_expect hts c).bind fun _ _ hleft => h hleft

/-- All types of a list are well-formed. -/
def AllWellFormed (types : List TypeExpr) : Prop := ∀ t ∈ types, WellFormed t

theorem allWellFormed_nil : AllWellFormed [] := List.forall_mem_nil _

theorem AllWellFormed.cons {t : TypeExpr} {types : List TypeExpr} (h : WellFormed t)
    (hmore : AllWellFormed types) :
    AllWellFormed (t :: types) :=
  List.forall_mem_cons.mpr ⟨h, hmore⟩

/-- Behind a `|` there is at least one more member. -/
theorem ne_nil_of_readAlternatives {more : List TypeExpr} {left : List Lexeme}
    (hbar : at? '|' ts = true) (h : readAlternatives depth ts = .ok (more, left)) : more ≠ [] := by
  cases depth with
  | zero => cases h
  | succ depth =>
    rw [readAlternatives, if_pos hbar] at h
    obtain ⟨member, -, h⟩ := exists_of_bind_eq_ok h
    obtain ⟨rest, -, h⟩ := exists_of_bind_eq_ok h
    cases h
    simp

theorem makes_readUnion (hmember : Makes WellFormed (readIntersection depth))
    (hmore : Makes AllWellFormed (readAlternatives depth)) :
    Makes WellFormed (readUnion (depth + 1)) := by
  intro ts hts
  simp only [readUnion]
  refine (hmember hts).bind ?_
  rintro ⟨first, left⟩ - ⟨hfirst, hleft⟩
  dsimp only
  split
  · rename_i hbar
    refine (hmore hleft).bind ?_
    rintro ⟨more, left⟩ hread ⟨hmore, hleft⟩
    have hlength := List.length_pos_iff.mpr (ne_nil_of_readAlternatives hbar hread)
    exact gives_ok ⟨.union (Nat.succ_le_succ hlength) (hmore.cons hfirst), hleft⟩
  · exact gives_ok ⟨hfirst, hleft⟩

theorem makes_readAlternatives (hmember : Makes WellFormed (readIntersection depth))
    (hmore : Makes AllWellFormed (readAlternatives depth)) :
    Makes AllWellFormed (readAlternatives (depth + 1)) :=
  .ite
    (hmember.tail.bind fun _ hmember => hmore.bind fun _ hmore => makes_done (hmore.cons hmember))
    (makes_done allWellFormed_nil)

theorem makes_readIntersection (hmember : Makes WellFormed (readPostfix depth))
    (hmore : Makes AllWellFormed (readConjuncts depth)) :
    Makes WellFormed (readIntersection (depth + 1)) := by
  have hform : ∀ {first : TypeExpr} {more : List TypeExpr}, WellFormed first → AllWellFormed more →
      WellFormed (if more.isEmpty then first else .inter (first :: more)) := by
    intro first more hfirst hmore
    cases more with
    | nil => exact hfirst
    | cons second more => exact .inter (by simp) (hmore.cons hfirst)
  exact hmember.bind fun _ hfirst => hmore.bind fun _ hmore => makes_done (hform hfirst hmore)

theorem makes_readConjuncts (hmember : Makes WellFormed (readPostfix depth))
    (hmore : Makes AllWellFormed (readConjuncts depth)) :
    Makes AllWellFormed (readConjuncts (depth + 1)) :=
  .ite
    (hmember.tail.bind fun _ hmember => hmore.bind fun _ hmore => makes_done (hmore.cons hmember))
    (makes_done allWellFormed_nil)

theorem wellFormed_readBrackets {t : TypeExpr} (h : WellFormed t) (hts : SoundTokens ts) :
    WellFormed (readBrackets t ts).1 ∧ SoundTokens (readBrackets t ts).2 := by
  fun_induction readBrackets t ts with
  | case1 t _ _ _ _ ts ih => exact ih (.array h) hts.tail.tail
  | case2 => exact ⟨h, hts⟩

theorem makes_readPostfix (hatom : Makes WellFormed (readAtom depth)) :
    Makes WellFormed (readPostfix (depth + 1)) :=
  hatom.bind fun _ ht _ hts => gives_ok (wellFormed_readBrackets ht hts)

theorem wellFormed_numberLiteral {text : String} (h : text ≠ "") :
    WellFormed (numberLiteral text) := by
  unfold numberLiteral
  split
  · rename_i hdot
    exact .float h (List.contains_iff_mem.mp hdot)
  · rename_i hdot
    exact .int h (by simpa using hdot)

theorem makes_readAtom (hsuffixed : Makes WellFormed (readPostfix depth))
    (hinner : Makes WellFormed (readParenthesized depth))
    (hnamed : ∀ base, base ≠ "" → Makes WellFormed (readNamed depth base)) :
    Makes WellFormed (readAtom (depth + 1)) := by
  intro ts hts
  simp only [readAtom]
  split
  · exact (hsuffixed.bind fun _ hinner => makes_done (.nullable hinner)) hts.tail
  · exact hinner hts.tail
  · rename_i hpeek
    exact gives_ok ⟨.quoted (hts.peek hpeek), hts.tail⟩
  · rename_i hpeek
    exact gives_ok ⟨wellFormed_numberLiteral (hts.peek hpeek), hts.tail⟩
  · exact gives_ok ⟨.name (by decide), hts.tail⟩
  · exact gives_ok ⟨.name (by decide), hts.tail⟩
  · rename_i hpeek
    exact hnamed _ (hts.peek hpeek) hts.tail
  · exact gives_error _

/-- What holds of a field that is read. -/
def FieldWellFormed (field : ShapeField) : Prop := KeyedIfOptional field ∧ WellFormed field.value

theorem makes_readNamed (hparams : Makes AllWellFormed (readParams depth))
    (hfields : Makes (fun fields => ∀ f ∈ fields, FieldWellFormed f) (readFields depth))
    (hsignature : Makes AllWellFormed (readCallableParams depth))
    (hsuffixed : Makes WellFormed (readPostfix depth)) {base : String} (hbase : base ≠ "") :
    Makes WellFormed (readNamed (depth + 1) base) := by
  intro ts hts
  simp only [readNamed]
  split
  · exact (hparams.bind fun _ hparams => makes_done (.generic hbase hparams)) hts.tail
  split
  · rename_i hopen
    rw [Bool.and_eq_true, List.contains_iff_mem] at hopen
    exact (hfields.bind fun _ hfields => makes_done
      (.shape hopen.2 (fun f hf => (hfields f hf).1) fun f hf => (hfields f hf).2)) hts.tail
  split
  · rename_i hopen
    rw [Bool.and_eq_true, List.contains_iff_mem] at hopen
    refine (hsignature hts.tail).bind ?_
    rintro ⟨params, left⟩ - ⟨hparams, hleft⟩
    dsimp only
    split
    · refine (hsuffixed hleft.tail).bind ?_
      rintro ⟨result, left⟩ - ⟨hresult, hleft⟩
      exact gives_ok ⟨.callable hopen.2 hparams (by simpa using hresult), hleft⟩
    · exact gives_ok ⟨.callable hopen.2 hparams (by simp), hleft⟩
  · exact gives_ok ⟨.name hbase, hts⟩

theorem makes_readConditional (hunion : Makes WellFormed (readUnion depth)) :
    Makes WellFormed (readConditional (depth + 1)) := fun _ hts =>
  (hunion.bind fun _ _ => .expect (hunion.bind fun _ hyes => .expect (hunion.bind fun _ hno =>
    .expect (makes_done (WellFormed.conditional hyes hno)) ')') ':') '?') (hts.tail.ite _)

theorem makes_readParenthesized (hunion : Makes WellFormed (readUnion depth))
    (hconditional : Makes WellFormed (readConditional depth)) :
    Makes WellFormed (readParenthesized (depth + 1)) := by
  intro ts hts
  simp only [readParenthesized]
  split
  · exact hconditional hts.tail
  · exact (hunion.bind fun inner hinner =>
      .ite hconditional (Makes.expect (makes_done hinner) ')')) hts

/-- What follows an item of a list: a comma and more items, or the end of the list. -/
theorem Makes.more {rest : List Lexeme → Except TypeError (List α × List Lexeme)}
    (h : Makes (fun items => ∀ x ∈ items, p x) rest) {x : α} (hx : p x) (closing : Char) :
    Makes (fun items => ∀ x ∈ items, p x) fun ts => do
      if at? ',' ts then
        let (more, ts) ← rest ts.tail
        return (x :: more, ts)
      else
        let ts ← TypeExpr.expect closing ts
        return ([x], ts) :=
  .ite (h.tail.bind fun _ hmore => makes_done (List.forall_mem_cons.mpr ⟨hx, hmore⟩))
    (.expect (makes_done (List.forall_mem_singleton.mpr hx)) closing)

theorem makes_readParams (hunion : Makes WellFormed (readUnion depth))
    (hmore : Makes AllWellFormed (readParams depth)) :
    Makes AllWellFormed (readParams (depth + 1)) := by
  have hitem : Makes WellFormed fun ts => readUnion depth (dropVariance ts) :=
    fun _ hts => hunion hts.dropVariance
  exact .ite (makes_done allWellFormed_nil).tail
    (hitem.bind fun _ hparam => Makes.more hmore hparam '>')

theorem makes_readFields (hfield : Makes FieldWellFormed (readField depth))
    (hmore : Makes (fun fields => ∀ f ∈ fields, FieldWellFormed f) (readFields depth)) :
    Makes (fun fields => ∀ f ∈ fields, FieldWellFormed f) (readFields (depth + 1)) := by
  have hnone : ∀ f ∈ ([] : List ShapeField), FieldWellFormed f := List.forall_mem_nil _
  have hopen : Makes (fun fields => ∀ f ∈ fields, FieldWellFormed f) fun ts =>
      expect '\x7d' ts >>= fun ts => .ok (([] : List ShapeField), ts) :=
    .expect (makes_done hnone) '\x7d'
  exact .ite (makes_done hnone).tail
    (.ite hopen.tail (hfield.bind fun _ hfield => hmore.more hfield '\x7d'))

theorem makes_readField (hunion : Makes WellFormed (readUnion depth)) :
    Makes FieldWellFormed (readField (depth + 1)) := by
  intro ts hts
  simp only [readField]
  split
  · refine (hunion hts).bind ?_
    rintro ⟨value, left⟩ - ⟨hvalue, hleft⟩
    exact gives_ok ⟨⟨fun h => (by cases h), hvalue⟩, hleft⟩
  · refine (gives_expect (hts.tail.dropPunct '?') ':').bind fun left _ hleft =>
      (hunion hleft).bind ?_
    rintro ⟨value, left⟩ - ⟨hvalue, hleft⟩
    exact gives_ok ⟨⟨fun _ => rfl, hvalue⟩, hleft⟩

theorem makes_readCallableParams (hunion : Makes WellFormed (readUnion depth))
    (hmore : Makes AllWellFormed (readCallableParams depth)) :
    Makes AllWellFormed (readCallableParams (depth + 1)) := by
  intro ts hts
  simp only [readCallableParams]
  split
  · exact gives_ok ⟨allWellFormed_nil, hts.tail⟩
  · refine (hunion hts).bind ?_
    rintro ⟨param, left⟩ - ⟨hparam, hleft⟩
    exact Makes.more hmore hparam ')' hleft.dropParameterMarks

/-- What all readers make at a depth of calls. -/
structure Makers (depth : Nat) : Prop where
  union : Makes WellFormed (readUnion depth)
  alternatives : Makes AllWellFormed (readAlternatives depth)
  intersection : Makes WellFormed (readIntersection depth)
  conjuncts : Makes AllWellFormed (readConjuncts depth)
  suffixed : Makes WellFormed (readPostfix depth)
  atom : Makes WellFormed (readAtom depth)
  named : ∀ base, base ≠ "" → Makes WellFormed (readNamed depth base)
  parenthesized : Makes WellFormed (readParenthesized depth)
  conditional : Makes WellFormed (readConditional depth)
  params : Makes AllWellFormed (readParams depth)
  fields : Makes (fun fields => ∀ f ∈ fields, FieldWellFormed f) (readFields depth)
  field : Makes FieldWellFormed (readField depth)
  callableParams : Makes AllWellFormed (readCallableParams depth)

theorem makersAt (depth : Nat) : Makers depth := by
  induction depth with
  | zero =>
    constructor
    case named => exact fun base _ => makes_zero fun ts => rfl
    all_goals exact makes_zero fun ts => rfl
  | succ depth ih =>
    exact {
      union := makes_readUnion ih.intersection ih.alternatives
      alternatives := makes_readAlternatives ih.intersection ih.alternatives
      intersection := makes_readIntersection ih.suffixed ih.conjuncts
      conjuncts := makes_readConjuncts ih.suffixed ih.conjuncts
      suffixed := makes_readPostfix ih.atom
      atom := makes_readAtom ih.suffixed ih.parenthesized ih.named
      named :=
        fun _ hbase => makes_readNamed ih.params ih.fields ih.callableParams ih.suffixed hbase
      parenthesized := makes_readParenthesized ih.union ih.conditional
      conditional := makes_readConditional ih.union
      params := makes_readParams ih.union ih.params
      fields := makes_readFields ih.field ih.fields
      field := makes_readField ih.union
      callableParams := makes_readCallableParams ih.union ih.callableParams }

/-- **A type at the start of a text is well-formed.** -/
theorem wellFormed_of_parsePrefix {text : String} {t : TypeExpr} {stop : Nat}
    (h : parsePrefix text = .ok (t, stop)) :
    WellFormed t := by
  rw [parsePrefix_eq_readPrefix] at h
  obtain ⟨⟨t', left⟩, hread, h⟩ := exists_of_bind_eq_ok h
  cases h
  exact ((makersAt _).union (soundTokens_lexemes text.toList) _ hread).1

/-- A shape with an optional field and one without a key, or a callable that takes an
intersection. -/
def shapeOrClosure : TypeExpr :=
  .union
    [.shape "Array"
      [.mk (some "id") true (.literal (.float "-1.5")), .mk none false (.literal (.text "'x'"))],
      .callable "\\Closure" [.inter [.name "A", .name "B"]] (some (.array (.literal (.int "7"))))]

theorem wellFormed_of_parsePrefix_shape :
    parsePrefix "Array\x7bid?: -1.5, 'x'\x7d|\\Closure(A&B): 7[] $x" = .ok (shapeOrClosure, 40) ∧
      WellFormed shapeOrClosure := by
  have h : parsePrefix "Array\x7bid?: -1.5, 'x'\x7d|\\Closure(A&B): 7[] $x" =
      .ok (shapeOrClosure, 40) := by
    decide +kernel
  exact ⟨h, wellFormed_of_parsePrefix h⟩

end ClassDocs.TypeExpr

import ClassDocs.Proofs.TypePrefix
import ClassDocs.Proofs.TypeRoundTrip

/-!
# The reader of types sees tokens alone

Two texts with the same tokens denote the same type, or fail for the same cause (`parse_congr`),
wherever their tokens stand. The tokens that the readers work on carry their offsets, but an offset
gets no further than into an error: every reader takes equal steps on two lists of the same tokens
(`BlindReaders`), by induction on the depth of calls, and whether something is left behind a type
is a question about tokens too (`read_of_left`).

So white space between two tokens may come and go (`tokensOf_insert`). A token does not notice it,
since only a quoted text holds white space, and a quoted text that ends before the place ends there
again.
-/

namespace ClassDocs

/-- Two errors of one kind. What was found is part of the cause, its place is not. -/
inductive TypeError.SameCause : TypeError → TypeError → Prop where
  | unexpectedEnd : SameCause .unexpectedEnd .unexpectedEnd
  | unexpected (found : String) (offset offset' : Nat) :
      SameCause (.unexpected found offset) (.unexpected found offset')
  | trailing (rest rest' : String) : SameCause (.trailing rest) (.trailing rest')

namespace TypeExpr

open ClassDocs.Text

variable {α β : Type} {ts us : List Lexeme}

/-! ## The same tokens -/

/-- The same tokens, wherever they stand. -/
def SameTokens (ts us : List Lexeme) : Prop := ts.map Lexeme.token = us.map Lexeme.token

theorem SameTokens.tail (h : SameTokens ts us) : SameTokens ts.tail us.tail := by
  rw [SameTokens, List.map_tail, List.map_tail, h]

theorem SameTokens.length (h : SameTokens ts us) : ts.length = us.length := by
  have hlen := congrArg List.length h
  rwa [List.length_map, List.length_map] at hlen

theorem SameTokens.nil_iff (h : SameTokens ts us) : ts = [] ↔ us = [] := by
  rw [← List.length_eq_zero_iff, h.length, List.length_eq_zero_iff]

theorem SameTokens.peek (h : SameTokens ts us) : peek ts = peek us := by
  rw [peek_eq, peek_eq, h]

theorem SameTokens.peekSecond (h : SameTokens ts us) : peekSecond ts = peekSecond us := h.tail.peek

theorem SameTokens.peekThird (h : SameTokens ts us) : peekThird ts = peekThird us :=
  h.tail.tail.peek

theorem SameTokens.at? (h : SameTokens ts us) (c : Char) : at? c ts = at? c us := by
  rw [TypeExpr.at?, TypeExpr.at?, h.peek]

theorem SameTokens.atWord (h : SameTokens ts us) (word : String) :
    atWord word ts = atWord word us := by
  rw [TypeExpr.atWord, TypeExpr.atWord, h.peek]

theorem SameTokens.atIntersection (h : SameTokens ts us) :
    atIntersection ts = atIntersection us := by
  rw [TypeExpr.atIntersection, TypeExpr.atIntersection, h.at?, h.peekSecond]

theorem SameTokens.fieldKey? (h : SameTokens ts us) : fieldKey? ts = fieldKey? us := by
  rw [TypeExpr.fieldKey?, TypeExpr.fieldKey?, h.peek, h.peekSecond, h.peekThird]

theorem SameTokens.ite {cond : Bool} {ts' us' : List Lexeme} (h : SameTokens ts us)
    (h' : SameTokens ts' us') :
    SameTokens (if cond then ts else ts') (if cond then us else us') := by
  cases cond
  · exact h'
  · exact h

theorem SameTokens.dropPunct (h : SameTokens ts us) (c : Char) :
    SameTokens (dropPunct c ts) (dropPunct c us) := by
  rw [TypeExpr.dropPunct, TypeExpr.dropPunct, h.at?]
  exact h.tail.ite h

theorem SameTokens.dropVariable (h : SameTokens ts us) :
    SameTokens (dropVariable ts) (dropVariable us) := by
  unfold TypeExpr.dropVariable
  rw [h.peek]
  split
  · exact h.tail
  · exact h

theorem SameTokens.dropParameterMarks (h : SameTokens ts us) :
    SameTokens (dropParameterMarks ts) (dropParameterMarks us) := by
  have hmark := h.dropPunct '&'
  have hdots : SameTokens
      (if TypeExpr.peek (TypeExpr.dropPunct '&' ts) == some .ellipsis then
        (TypeExpr.dropPunct '&' ts).tail else TypeExpr.dropPunct '&' ts)
      (if TypeExpr.peek (TypeExpr.dropPunct '&' us) == some .ellipsis then
        (TypeExpr.dropPunct '&' us).tail else TypeExpr.dropPunct '&' us) := by
    rw [hmark.peek]
    exact hmark.tail.ite hmark
  exact hdots.dropVariable.dropPunct '='

theorem SameTokens.dropVariance (h : SameTokens ts us) :
    SameTokens (dropVariance ts) (dropVariance us) := by
  unfold TypeExpr.dropVariance
  rw [h.peek, h.peekSecond]
  split
  all_goals first | exact h | exact h.tail

/-- Tokens that start with two given ones. -/
theorem SameTokens.exists_cons_cons {t t' : Lexeme} {rest : List Lexeme}
    (h : SameTokens (t :: t' :: rest) us) :
    ∃ u u' rest', us = u :: u' :: rest' ∧ t.token = u.token ∧ t'.token = u'.token ∧
      SameTokens rest rest' := by
  match us with
  | [] => simp [SameTokens] at h
  | [u] => simp [SameTokens] at h
  | u :: u' :: rest' =>
    simp only [SameTokens, List.map_cons, List.cons.injEq] at h
    exact ⟨u, u', rest', rfl, h.1, h.2.1, h.2.2⟩

theorem SameTokens.symm (h : SameTokens ts us) : SameTokens us ts := Eq.symm h

theorem SameTokens.readBrackets (h : SameTokens ts us) (t : TypeExpr) :
    (readBrackets t ts).1 = (readBrackets t us).1 ∧
      SameTokens (readBrackets t ts).2 (readBrackets t us).2 := by
  fun_induction TypeExpr.readBrackets t ts generalizing us with
  | case1 t s e s' e' rest ih =>
    obtain ⟨⟨tok, _, _⟩, ⟨tok', _, _⟩, rest', rfl, rfl, rfl, hrest⟩ := h.exists_cons_cons
    rw [TypeExpr.readBrackets]
    exact ih hrest
  | case2 t ts hne =>
    have hstop : TypeExpr.readBrackets t us = (t, us) := by
      refine readBrackets.eq_2 t us fun s e s' e' rest hus => ?_
      subst hus
      obtain ⟨⟨tok, _, _⟩, ⟨tok', _, _⟩, rest', hts, rfl, rfl, -⟩ := h.symm.exists_cons_cons
      exact hne _ _ _ _ _ hts
    rw [hstop]
    exact ⟨rfl, h⟩

/-! ## The same outcome -/

/-- Two outcomes that differ in offsets only: results that are related, or errors of one cause. -/
inductive Alike (R : α → α → Prop) : Except TypeError α → Except TypeError α → Prop where
  | ok {a a' : α} : R a a' → Alike R (.ok a) (.ok a')
  | error {e e' : TypeError} : e.SameCause e' → Alike R (.error e) (.error e')

/-- The same result, with the same tokens left. -/
def SameRest (r r' : α × List Lexeme) : Prop := r.1 = r'.1 ∧ SameTokens r.2 r'.2

theorem Alike.bind {R : α → α → Prop} {S : β → β → Prop} {x x' : Except TypeError α}
    {f f' : α → Except TypeError β} (h : Alike R x x')
    (hf : ∀ a a', R a a' → Alike S (f a) (f' a')) : Alike S (x >>= f) (x' >>= f') := by
  cases h with
  | ok hr => exact hf _ _ hr
  | error he => exact .error he

theorem Alike.ite {R : α → α → Prop} {cond cond' : Bool} {x x' y y' : Except TypeError α}
    (hcond : cond = cond') (h : Alike R x x') (h' : Alike R y y') :
    Alike R (if cond then x else y) (if cond' then x' else y') := by
  subst hcond
  cases cond
  · exact h'
  · exact h

theorem alike_done (a : α) (h : SameTokens ts us) : Alike SameRest (.ok (a, ts)) (.ok (a, us)) :=
  .ok ⟨rfl, h⟩

theorem alike_unexpected (R : α → α → Prop) (h : SameTokens ts us) :
    Alike R (.error (unexpected ts)) (.error (unexpected us)) := by
  match ts, us with
  | [], [] => exact .error .unexpectedEnd
  | [], _ :: _ => simp [SameTokens] at h
  | _ :: _, [] => simp [SameTokens] at h
  | t :: ts, u :: us =>
    simp only [SameTokens, List.map_cons, List.cons.injEq] at h
    rw [unexpected, unexpected, h.1]
    exact .error (.unexpected _ _ _)

theorem alike_expect (h : SameTokens ts us) (c : Char) :
    Alike SameTokens (expect c ts) (expect c us) :=
  .ite (h.at? c) (.ok h.tail) (alike_unexpected _ h)

/-! ## The readers -/

/-- A reader that takes equal steps on the same tokens. -/
def Blind (reader : List Lexeme → Except TypeError (α × List Lexeme)) : Prop :=
  ∀ ⦃ts us : List Lexeme⦄, SameTokens ts us → Alike SameRest (reader ts) (reader us)

variable {depth : Nat}

theorem blind_zero {reader : List Lexeme → Except TypeError (α × List Lexeme)}
    (h : ∀ ts, reader ts = .error (unexpected ts)) : Blind reader := by
  intro ts us hsame
  rw [h, h]
  exact alike_unexpected _ hsame

/-- A reader and what is done with its result. -/
theorem Blind.bind {reader : List Lexeme → Except TypeError (α × List Lexeme)}
    {next : α → List Lexeme → Except TypeError (β × List Lexeme)} (h : Blind reader)
    (hnext : ∀ a, Blind (next a)) :
    Blind fun ts => reader ts >>= fun r => next r.1 r.2 := by
  intro ts us hsame
  refine (h hsame).bind ?_
  rintro ⟨a, left⟩ ⟨_, left'⟩ ⟨rfl, hleft⟩
  exact hnext a hleft

theorem blind_done (a : α) : Blind fun ts => .ok (a, ts) := fun _ _ h => alike_done a h

theorem Blind.tail {reader : List Lexeme → Except TypeError (α × List Lexeme)} (h : Blind reader) :
    Blind fun ts => reader ts.tail := fun _ _ hsame => h hsame.tail

theorem Blind.ite {yes no : List Lexeme → Except TypeError (α × List Lexeme)}
    {cond : List Lexeme → Bool}
    (hcond : ∀ ⦃ts us : List Lexeme⦄, SameTokens ts us → cond ts = cond us) (hyes : Blind yes)
    (hno : Blind no) :
    Blind fun ts => if cond ts then yes ts else no ts :=
  fun _ _ h => .ite (hcond h) (hyes h) (hno h)

theorem Blind.ite_at {yes no : List Lexeme → Except TypeError (α × List Lexeme)} (c : Char)
    (hyes : Blind yes) (hno : Blind no) :
    Blind fun ts => if at? c ts then yes ts.tail else no ts :=
  .ite (fun _ _ h => h.at? c) hyes.tail hno

theorem Blind.expect {reader : List Lexeme → Except TypeError (α × List Lexeme)}
    (h : Blind reader) (c : Char) :
    Blind fun ts => TypeExpr.expect c ts >>= fun ts => reader ts :=
  fun _ _ hsame => (alike_expect hsame c).bind fun _ _ hleft => h hleft

theorem blind_readUnion (hmember : Blind (readIntersection depth))
    (hmore : Blind (readAlternatives depth)) :
    Blind (readUnion (depth + 1)) :=
  hmember.bind fun first => .ite (fun _ _ h => h.at? '|')
    (hmore.bind fun more => blind_done (TypeExpr.union (first :: more))) (blind_done first)

theorem blind_readAlternatives (hmember : Blind (readIntersection depth))
    (hmore : Blind (readAlternatives depth)) :
    Blind (readAlternatives (depth + 1)) :=
  .ite_at '|' (hmember.bind fun member => hmore.bind fun more => blind_done (member :: more))
    (blind_done [])

theorem blind_readIntersection (hmember : Blind (readPostfix depth))
    (hmore : Blind (readConjuncts depth)) :
    Blind (readIntersection (depth + 1)) :=
  hmember.bind fun first => hmore.bind fun more =>
    blind_done (if more.isEmpty then first else TypeExpr.inter (first :: more))

theorem blind_readConjuncts (hmember : Blind (readPostfix depth))
    (hmore : Blind (readConjuncts depth)) :
    Blind (readConjuncts (depth + 1)) :=
  .ite (fun _ _ h => h.atIntersection)
    (hmember.tail.bind fun member => hmore.bind fun more => blind_done (member :: more))
      (blind_done [])

theorem blind_readPostfix (hatom : Blind (readAtom depth)) : Blind (readPostfix (depth + 1)) :=
  hatom.bind fun t _ _ h => .ok (h.readBrackets t)

theorem blind_readAtom (hsuffixed : Blind (readPostfix depth))
    (hinner : Blind (readParenthesized depth)) (hnamed : ∀ base, Blind (readNamed depth base)) :
    Blind (readAtom (depth + 1)) := by
  intro ts us h
  simp only [readAtom]
  rw [h.peek]
  split
  · exact (hsuffixed.bind fun inner => blind_done (TypeExpr.nullable inner)) h.tail
  · exact hinner h.tail
  · exact alike_done _ h.tail
  · exact alike_done _ h.tail
  · exact alike_done _ h.tail
  · exact alike_done _ h.tail
  · exact hnamed _ h.tail
  · exact alike_unexpected _ h

theorem blind_readNamed (hparams : Blind (readParams depth)) (hfields : Blind (readFields depth))
    (hsignature : Blind (readCallableParams depth)) (hsuffixed : Blind (readPostfix depth))
    (base : String) :
    Blind (readNamed (depth + 1) base) := by
  have hcallable := hsignature.bind fun params => Blind.ite_at ':'
    (hsuffixed.bind fun result => blind_done (TypeExpr.callable base params (some result)))
    (blind_done (TypeExpr.callable base params none))
  intro ts us h
  simp only [readNamed]
  refine .ite (h.at? '<')
    ((hparams.bind fun params => blind_done (TypeExpr.generic base params)) h.tail) ?_
  refine .ite (by rw [h.at?])
    ((hfields.bind fun fields => blind_done (TypeExpr.shape base fields)) h.tail) ?_
  exact .ite (by rw [h.at?]) (hcallable h.tail) (alike_done _ h)

theorem blind_readConditional (hunion : Blind (readUnion depth)) :
    Blind (readConditional (depth + 1)) := by
  intro ts us h
  have hnot : SameTokens (if atWord "not" ts.tail then ts.tail.tail else ts.tail)
      (if atWord "not" us.tail then us.tail.tail else us.tail) := by
    rw [h.tail.atWord]
    exact h.tail.tail.ite h.tail
  exact (hunion.bind fun _ => .expect (hunion.bind fun yes => .expect (hunion.bind fun no =>
    .expect (blind_done (TypeExpr.conditional yes no)) ')') ':') '?') hnot

theorem blind_readParenthesized (hunion : Blind (readUnion depth))
    (hconditional : Blind (readConditional depth)) :
    Blind (readParenthesized (depth + 1)) := by
  have hgrouped := hunion.bind fun inner =>
    Blind.ite (fun _ _ h => h.atWord "is") hconditional (Blind.expect (blind_done inner) ')')
  intro ts us h
  simp only [readParenthesized]
  rw [h.peek, h.tail.atWord]
  split
  · exact hconditional h.tail
  · exact hgrouped h

/-- What follows an item of a list: a comma and more items, or the end of the list. -/
theorem Blind.more {rest : List Lexeme → Except TypeError (List α × List Lexeme)}
    (h : Blind rest) (x : α) (closing : Char) : Blind fun ts => do
      if at? ',' ts then
        let (more, ts) ← rest ts.tail
        return (x :: more, ts)
      else
        let ts ← TypeExpr.expect closing ts
        return ([x], ts) :=
  .ite_at ',' (h.bind fun more => blind_done (x :: more)) (.expect (blind_done [x]) closing)

theorem blind_readParams (hunion : Blind (readUnion depth)) (hmore : Blind (readParams depth)) :
    Blind (readParams (depth + 1)) := by
  have hitem : Blind fun ts => readUnion depth (dropVariance ts) :=
    fun _ _ h => hunion h.dropVariance
  exact .ite_at '>' (blind_done []) (hitem.bind fun param => hmore.more param '>')

theorem blind_readFields (hfield : Blind (readField depth)) (hmore : Blind (readFields depth)) :
    Blind (readFields (depth + 1)) := by
  have hopen : Blind fun ts => expect '\x7d' ts >>= fun ts => .ok (([] : List ShapeField), ts) :=
    .expect (blind_done []) '\x7d'
  exact .ite_at '\x7d' (blind_done []) (.ite (fun _ _ h => by rw [h.peek]) hopen.tail
    (hfield.bind fun field => hmore.more field '\x7d'))

theorem blind_readField (hunion : Blind (readUnion depth)) : Blind (readField (depth + 1)) := by
  intro ts us h
  simp only [readField]
  rw [h.fieldKey?]
  split
  · exact (hunion.bind fun value => blind_done (ShapeField.mk none false value)) h
  · rename_i key _
    rw [h.tail.at?]
    exact (alike_expect (h.tail.dropPunct '?') ':').bind fun _ _ hleft =>
      (hunion.bind fun value => blind_done (ShapeField.mk (some key) (at? '?' us.tail) value))
        hleft

theorem blind_readCallableParams (hunion : Blind (readUnion depth))
    (hmore : Blind (readCallableParams depth)) :
    Blind (readCallableParams (depth + 1)) :=
  .ite_at ')' (blind_done [])
    (hunion.bind fun param _ _ h => hmore.more param ')' h.dropParameterMarks)

/-- What is known of all readers at a depth of calls. -/
structure BlindReaders (depth : Nat) : Prop where
  union : Blind (readUnion depth)
  alternatives : Blind (readAlternatives depth)
  intersection : Blind (readIntersection depth)
  conjuncts : Blind (readConjuncts depth)
  suffixed : Blind (readPostfix depth)
  atom : Blind (readAtom depth)
  named : ∀ base, Blind (readNamed depth base)
  parenthesized : Blind (readParenthesized depth)
  conditional : Blind (readConditional depth)
  params : Blind (readParams depth)
  fields : Blind (readFields depth)
  field : Blind (readField depth)
  callableParams : Blind (readCallableParams depth)

theorem blindReaders (depth : Nat) : BlindReaders depth := by
  induction depth with
  | zero =>
    constructor
    case named => exact fun base => blind_zero fun ts => rfl
    all_goals exact blind_zero fun ts => rfl
  | succ depth ih =>
    exact {
      union := blind_readUnion ih.intersection ih.alternatives
      alternatives := blind_readAlternatives ih.intersection ih.alternatives
      intersection := blind_readIntersection ih.suffixed ih.conjuncts
      conjuncts := blind_readConjuncts ih.suffixed ih.conjuncts
      suffixed := blind_readPostfix ih.atom
      atom := blind_readAtom ih.suffixed ih.parenthesized ih.named
      named := blind_readNamed ih.params ih.fields ih.callableParams ih.suffixed
      parenthesized := blind_readParenthesized ih.union ih.conditional
      conditional := blind_readConditional ih.union
      params := blind_readParams ih.union ih.params
      fields := blind_readFields ih.field ih.fields
      field := blind_readField ih.union
      callableParams := blind_readCallableParams ih.union ih.callableParams }

/-! ## Whole texts -/

/-- Something is left of a text behind the type at its start iff tokens are left. -/
theorem read_of_left {input : List Char} {t : TypeExpr} {left : List Lexeme}
    (h : readUnion (readingDepth (lexemes input)) (lexemes input) = .ok (t, left)) :
    (left = [] → read input = .ok t) ∧
      (left ≠ [] → ∃ rest, read input = .error (.trailing rest)) := by
  refine ⟨fun hnil => read_of_readUnion (hnil ▸ h), fun hleft => ?_⟩
  obtain ⟨used, hused, -, -⟩ := (localReaders _).union h
  obtain ⟨front, back, rfl, hsplit⟩ := exists_splitsAt 0 hused
  have htokens := hsplit.tokens back (List.prefix_refl _)
  rw [Nat.zero_add] at htokens
  have hback : left = tokensFrom (bytes front) back :=
    List.append_cancel_left (hused.symm.trans htokens)
  have hstem : readPrefix (front ++ back) = .ok (t, bytes front) := by
    unfold readPrefix
    simp only [h, bind, Except.bind, pure, Except.pure]
    rw [hused, hsplit.consumed_eq]
  cases htrim : trim back with
  | nil => exact absurd (hback.trans (tokensFrom_of_all_blank (all_blank_of_trim htrim))) hleft
  | cons c cs =>
    refine ⟨.ofList (c :: cs), ?_⟩
    unfold read
    simp only [hstem, bind, Except.bind, dropBytes_append, htrim]
    rfl

theorem read_of_error {input : List Char} {e : TypeError}
    (h : readUnion (readingDepth (lexemes input)) (lexemes input) = .error e) :
    read input = .error e := by
  unfold read readPrefix
  simp only [h, bind, Except.bind]

theorem alike_read {input input' : List Char} (h : tokensOf input = tokensOf input') :
    Alike Eq (read input) (read input') := by
  have hsame : SameTokens (lexemes input) (lexemes input') := h
  have hdepth : readingDepth (lexemes input') = readingDepth (lexemes input) := by
    rw [readingDepth, readingDepth, hsame.length]
  have halike := (blindReaders (readingDepth (lexemes input))).union hsame
  generalize hx : readUnion (readingDepth (lexemes input)) (lexemes input) = x at halike
  generalize hx' : readUnion (readingDepth (lexemes input)) (lexemes input') = x' at halike
  rw [← hdepth] at hx'
  cases halike with
  | error he =>
    rw [read_of_error hx, read_of_error hx']
    exact .error he
  | @ok r r' hr =>
    obtain ⟨t, left⟩ := r
    obtain ⟨t', left'⟩ := r'
    obtain ⟨rfl, hleft⟩ := hr
    by_cases hnil : left = []
    · rw [(read_of_left hx).1 hnil, (read_of_left hx').1 (hleft.nil_iff.mp hnil)]
      exact .ok rfl
    · obtain ⟨rest, hrest⟩ := (read_of_left hx).2 hnil
      obtain ⟨rest', hrest'⟩ := (read_of_left hx').2 (mt hleft.nil_iff.mpr hnil)
      rw [hrest, hrest']
      exact .error (.trailing rest rest')

/-! ## White space between tokens -/

/-- The white space characters. -/
def blanks : List Char :=
  (List.range' 9 5 ++ [32, 0x85, 0xA0, 0x1680] ++ List.range' 0x2000 11 ++
    [0x2028, 0x2029, 0x202F, 0x205F, 0x3000]).map Char.ofNat

theorem mem_blanks {c : Char} (h : isBlank c = true) : c ∈ blanks := by
  rw [← Char.ofNat_toNat c]
  refine List.mem_map_of_mem ?_
  simp only [isBlank, Bool.or_eq_true, Bool.and_eq_true, decide_eq_true_eq, beq_iff_eq] at h
  simp only [List.mem_append, List.mem_range'_1, List.mem_cons, List.not_mem_nil, or_false]
  omega

/-- A class of characters without white space. -/
theorem isBlank_of_class {p : Char → Bool} (hp : blanks.all (!p ·) = true) {c : Char}
    (h : p c = true) :
    isBlank c = false := by
  cases hc : isBlank c with
  | false => rfl
  | true =>
    have hnot := List.all_eq_true.mp hp c (mem_blanks hc)
    rw [h] at hnot
    cases hnot

theorem isBlank_of_isNameChar {c : Char} (h : isNameChar c = true) : isBlank c = false :=
  isBlank_of_class (by decide +kernel) h

theorem isBlank_of_mem_nameAt {c : Char} (begun : Bool) {cs : List Char}
    (h : c ∈ nameAt begun cs) :
    isBlank c = false := by
  induction cs generalizing begun with
  | nil => cases h
  | cons d cs ih =>
    rw [nameAt] at h
    split at h
    · rename_i hd
      rcases List.mem_cons.mp h with rfl | h
      · exact isBlank_of_isNameChar hd
      · exact ih true h
    · split at h
      · rename_i hhyphen
        rcases List.mem_cons.mp h with rfl | h
        · simp only [Bool.and_eq_true, beq_iff_eq] at hhyphen
          rw [hhyphen.1.1]
          decide
        · exact ih begun h
      · cases h

theorem isBlank_of_mem_constantAt {c : Char} {cs : List Char} (h : c ∈ constantAt cs) :
    isBlank c = false := by
  unfold constantAt at h
  split at h
  · simp only [List.mem_cons] at h
    rcases h with rfl | rfl | h
    · decide
    · decide
    · exact isBlank_of_class (p := isConstantChar) (by decide) (List.mem_takeWhile_imp h)
  · cases h

/-- Only a quoted text holds white space. -/
theorem isBlank_of_mem_tokenAt {c d : Char} {cs : List Char} (hc : isBlank c = false)
    (hquote : c ≠ '\'' ∧ c ≠ '"') (h : d ∈ (tokenAt c cs).text.toList) : isBlank d = false := by
  unfold tokenAt at h
  split at h
  · have hdot : d = '.' := by simpa [Token.text] using h
    rw [hdot]
    decide
  split at h
  · simp only [Token.text, String.toList_ofList, List.mem_append] at h
    exact h.elim (isBlank_of_mem_nameAt false) isBlank_of_mem_constantAt
  split at h
  · simp only [Token.text, String.toList_ofList, List.mem_cons] at h
    rcases h with rfl | h
    · exact hc
    · exact isBlank_of_mem_nameAt false h
  split at h
  · simp only [Token.text, String.toList_ofList, List.mem_cons] at h
    rcases h with rfl | h
    · exact hc
    · exact isBlank_of_class (p := isNumberChar) (by decide) (List.mem_takeWhile_imp h)
  split at h
  · rename_i hc'
    simp [hquote] at hc'
  split at h
  all_goals
    simp only [Token.text, String.toList_ofList, List.mem_singleton] at h
    rw [h]
    exact hc

/-- A quoted text that ends before some place does so whatever stands behind that place. -/
theorem quotedAt_of_closed {quote : Char} {cs back : List Char} (hback : back ≠ [])
    (h : (quotedAt quote (cs ++ back)).length ≤ cs.length) (back' : List Char) :
    quotedAt quote (cs ++ back') = quotedAt quote (cs ++ back) := by
  obtain ⟨b, back, rfl⟩ := List.exists_cons_of_ne_nil hback
  match cs with
  | [] =>
    exfalso
    rw [List.nil_append, quotedAt.eq_def] at h
    split at h
    · contradiction
    · simp at h
    · split at h <;> simp at h
  | c :: cs =>
    by_cases hc : c = '\\'
    · -- the character after a backslash is taken with it
      subst hc
      cases cs with
      | nil => simp [quotedAt] at h
      | cons d cs =>
        simp only [List.cons_append, quotedAt, List.length_cons, Nat.add_le_add_iff_right] at h ⊢
        rw [quotedAt_of_closed hback h back']
    · rw [List.cons_append, quotedAt_cons hc] at h
      rw [List.cons_append, List.cons_append, quotedAt_cons hc, quotedAt_cons hc]
      split
      · rfl
      · rename_i hquote
        rw [if_neg hquote, List.length_cons, List.length_cons, Nat.add_le_add_iff_right] at h
        rw [quotedAt_of_closed hback h back']

/-- Any other token ends before the next blank. -/
theorem length_tokenAt_le {c b : Char} {cs : List Char} (hc : isBlank c = false)
    (hquote : ¬ (c = '\'' ∨ c = '"')) (hb : isBlank b = true) (rest : List Char) :
    (tokenAt c (cs ++ b :: rest)).text.toList.length ≤ cs.length + 1 := by
  by_contra hlen
  -- else the token holds the blank
  have htoken := isPrefix_text_tokenAt c (cs ++ b :: rest)
  obtain ⟨more, hmore⟩ : c :: cs <+: (tokenAt c (cs ++ b :: rest)).text.toList :=
    List.prefix_of_prefix_length_le (List.prefix_append (c :: cs) (b :: rest)) htoken
      (by rw [List.length_cons]; omega)
  rw [← hmore, ← List.cons_append, List.prefix_append_right_inj] at htoken
  cases more with
  | nil =>
    rw [← hmore] at hlen
    simp at hlen
  | cons d more =>
    obtain ⟨rfl, -⟩ := List.cons_prefix_cons.mp htoken
    have hd : isBlank d = false :=
      isBlank_of_mem_tokenAt hc (not_or.mp hquote) (by rw [← hmore]; simp)
    rw [hb] at hd
    cases hd

/-- A token that ends before some place does not notice white space that is put there. -/
theorem tokenAt_insert {c : Char} {cs back blank : List Char} (hc : isBlank c = false)
    (hback : back ≠ []) (hblank : ∀ d ∈ blank, isBlank d = true)
    (h : (tokenAt c (cs ++ back)).text.toList.length ≤ cs.length + 1) :
    tokenAt c (cs ++ (blank ++ back)) = tokenAt c (cs ++ back) := by
  by_cases hquote : c = '\'' ∨ c = '"'
  · rw [tokenAt_quote hquote] at h ⊢
    rw [tokenAt_quote hquote]
    simp only [Token.text, String.toList_ofList, List.length_cons, Nat.add_le_add_iff_right] at h
    rw [quotedAt_of_closed hback h (blank ++ back)]
  cases blank with
  | nil => rfl
  | cons b blank =>
    have hlen : (tokenAt c (cs ++ b :: (blank ++ back))).text.toList.length ≤ cs.length + 1 :=
      length_tokenAt_le hc hquote (hblank b List.mem_cons_self) _
    rw [List.cons_append, ← tokenAt_of_shorter (List.prefix_append cs _) hlen,
      ← tokenAt_of_shorter (List.prefix_append cs _) h]

theorem tokensOf_append_blank {blank : List Char} (h : ∀ c ∈ blank, isBlank c = true)
    (back : List Char) :
    tokensOf (blank ++ back) = tokensOf back := by
  induction blank with
  | nil => rfl
  | cons c blank ih =>
    rw [List.forall_mem_cons] at h
    rw [List.cons_append, tokensOf_blank h.1, ih h.2]

/-- White space that is put where no token reaches across leaves the tokens as they are. -/
theorem tokensOf_insert {front back blank : List Char} (hback : back ≠ [])
    (hblank : ∀ c ∈ blank, isBlank c = true)
    (h : tokensOf (front ++ back) = tokensOf front ++ tokensOf back) :
    tokensOf (front ++ (blank ++ back)) = tokensOf (front ++ back) := by
  match front with
  | [] => exact tokensOf_append_blank hblank back
  | c :: cs =>
    by_cases hc : isBlank c = true
    · rw [List.cons_append, tokensOf_blank hc, tokensOf_blank hc] at h
      rw [List.cons_append, List.cons_append, tokensOf_blank hc, tokensOf_blank hc]
      exact tokensOf_insert hback hblank h
    rw [Bool.not_eq_true] at hc
    rw [List.cons_append, tokensOf_cons hc, tokensOf_cons hc, List.cons_append, List.cons.injEq]
      at h
    obtain ⟨htoken, hrest⟩ := h
    have hlen : (tokenAt c (cs ++ back)).text.toList.length ≤ cs.length + 1 := by
      rw [htoken]
      exact (isPrefix_text_tokenAt c cs).length_le
    rw [List.cons_append, List.cons_append, tokensOf_cons hc, tokensOf_cons hc,
      tokenAt_insert hc hback hblank hlen]
    rw [← List.cons_append, ← List.cons_append, List.drop_append_of_le_length hlen,
      List.drop_append_of_le_length hlen]
    rw [← List.cons_append, List.drop_append_of_le_length hlen, ← htoken] at hrest
    rw [tokensOf_insert hback hblank hrest]
termination_by front.length
decreasing_by
  · simp
  · exact Nat.lt_succ_of_le (htoken ▸ length_drop_tokenAt c cs)

/-- Texts that differ in the white space between tokens. A place is between tokens if no token
reaches across it and it is not the end of the text. -/
inductive Respaced : List Char → List Char → Prop where
  | refl (input : List Char) : Respaced input input
  | insert (front blank back : List Char) : (∀ c ∈ blank, isBlank c = true) → back ≠ [] →
      tokensOf (front ++ back) = tokensOf front ++ tokensOf back →
        Respaced (front ++ back) (front ++ (blank ++ back))
  | symm {input input' : List Char} : Respaced input input' → Respaced input' input
  | trans {input input' input'' : List Char} : Respaced input input' → Respaced input' input'' →
      Respaced input input''

theorem Respaced.tokensOf_eq {input input' : List Char} (h : Respaced input input') :
    tokensOf input = tokensOf input' := by
  induction h with
  | refl => rfl
  | insert front blank back hblank hback hapart => exact (tokensOf_insert hback hblank hapart).symm
  | symm _ ih => exact ih.symm
  | trans _ _ ih ih' => exact ih.trans ih'

/--
Texts with the same tokens denote the same type, or fail for the same cause; so do texts that
differ in the white space between tokens, which have the same tokens.
-/
theorem parse_congr {s t : String}
    (h : tokenSequence s = tokenSequence t ∨ Respaced s.toList t.toList) :
    (∀ type, parse s = .ok type ↔ parse t = .ok type) ∧
      ∀ e e', parse s = .error e → parse t = .error e' → e.SameCause e' := by
  rw [tokenSequence_eq, tokenSequence_eq] at h
  have htokens : tokensOf s.toList = tokensOf t.toList := h.elim id Respaced.tokensOf_eq
  have halike : Alike Eq (read s.toList) (read t.toList) := alike_read htokens
  rw [parse_eq_read, parse_eq_read]
  generalize read s.toList = x at halike ⊢
  generalize read t.toList = x' at halike ⊢
  cases halike with
  | ok hsame =>
    subst hsame
    exact ⟨fun _ => Iff.rfl, nofun⟩
  | error hcause =>
    refine ⟨fun type => ⟨nofun, nofun⟩, ?_⟩
    rintro _ _ ⟨⟩ ⟨⟩
    exact hcause

/-- A conditional type with and without white space, and an error that moves by one byte with the
token it names. -/
theorem parse_congr_conditional :
    (parse "($x is int ? Foo[] : 'a b')" =
      .ok (.conditional (.array (.name "Foo")) (.literal (.text "'a b'"))) ∧
      tokenSequence "($x is int ? Foo[] : 'a b')" = tokenSequence "( $x  is\tint?Foo [ ]:'a b')" ∧
      parse "( $x  is\tint?Foo [ ]:'a b')" =
        .ok (.conditional (.array (.name "Foo")) (.literal (.text "'a b'")))) ∧
      parse "array<int]" = .error (.unexpected "]" 9) ∧
        Respaced "array<int]".toList "array<int ]".toList ∧
        parse "array<int ]" = .error (.unexpected "]" 10) ∧
        (TypeError.unexpected "]" 9).SameCause (.unexpected "]" 10) := by
  have hparse : parse "($x is int ? Foo[] : 'a b')" =
      .ok (.conditional (.array (.name "Foo")) (.literal (.text "'a b'"))) := by
    decide +kernel
  have htokens : tokenSequence "($x is int ? Foo[] : 'a b')" =
      tokenSequence "( $x  is\tint?Foo [ ]:'a b')" := by
    decide +kernel
  have herror : parse "array<int]" = .error (.unexpected "]" 9) := by decide +kernel
  have hmoved : parse "array<int ]" = .error (.unexpected "]" 10) := by decide +kernel
  have hspaced : Respaced "array<int]".toList "array<int ]".toList := by
    have hwhole : "array<int]".toList = "array<int".toList ++ [']'] := by decide +kernel
    have hinsert : "array<int ]".toList =
        "array<int".toList ++ ([' '] ++ [']']) := by decide +kernel
    rw [hwhole, hinsert]
    exact .insert "array<int".toList [' '] [']'] (List.forall_mem_singleton.mpr (by decide))
      (by simp) (by decide +kernel)
  exact ⟨⟨hparse, htokens, ((parse_congr (.inl htokens)).1 _).mp hparse⟩, herror, hspaced, hmoved,
    (parse_congr (.inr hspaced)).2 _ _ herror hmoved⟩

end TypeExpr

end ClassDocs

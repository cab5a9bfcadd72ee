import ClassDocs.Proofs.TokensAlone

/-!
# Where a type ends before a parameter

The type of a parameter is followed by the parameter: a variable, perhaps with `...` or `&` in
front of it. No type goes on with such tokens, so a reader that takes a type takes it again when
they stand behind it, and leaves them (`Extends`). This is the counterpart of taking tokens away
from what a reader leaves.

One thing a reader may leave is not stable: an `&` at the very end joins nothing, but could join
two types if more tokens came. So a reader is extended only where it does not leave a single `&`; a
step that finds one either fails or leaves it as well, which is what makes the steps compose.
-/

namespace ClassDocs.TypeExpr

open ClassDocs.Text

variable {α β : Type} {depth : Nat} {ts rest : List Lexeme}

/-! ## Tokens that are no part of a type -/

/-- No type goes on with these tokens: a variable, `...`, or an `&` before one of them. -/
structure Foreign (rest : List Lexeme) : Prop where
  mark : ∀ {c : Char}, at? c rest = true → c = '&'
  word : ∀ text, peek rest ≠ some (.ident text)
  joins : atIntersection rest = false

/-- A single `&`. -/
def Loose (left : List Lexeme) : Prop := ∃ amp : Lexeme, left = [amp] ∧ amp.token = .punct '&'

theorem at?_append (hrest : Foreign rest) {c : Char} (hc : c ≠ '&') (ts : List Lexeme) :
    at? c (ts ++ rest) = at? c ts := by
  cases ts with
  | nil =>
    rw [List.nil_append, at?_nil, Bool.eq_false_iff]
    exact fun hat => hc (hrest.mark hat)
  | cons t ts => rfl

theorem atWord_foreign (hrest : Foreign rest) (word : String) : atWord word rest = false := by
  rw [Bool.eq_false_iff]
  intro hword
  obtain ⟨t, more, rfl, text, ht, -⟩ := (atWord_iff word rest).mp hword
  exact hrest.word text (congrArg some ht)

theorem atIntersection_append (hrest : Foreign rest) (hloose : ¬ Loose ts) :
    atIntersection (ts ++ rest) = atIntersection ts := by
  match ts with
  | [] => exact hrest.joins
  | [t] =>
    have ht : at? '&' [t] = false := at?_cons_of_ne [] fun ht => hloose ⟨t, rfl, ht⟩
    have ht' : at? '&' ([t] ++ rest) = false := ht
    rw [atIntersection_eq, atIntersection_eq, ht, ht', Bool.false_and, Bool.false_and]
  | t :: u :: ts => rfl

theorem readBrackets_append (hrest : Foreign rest) (t : TypeExpr) (ts : List Lexeme) :
    readBrackets t (ts ++ rest) = ((readBrackets t ts).1, (readBrackets t ts).2 ++ rest) := by
  have hno : ∀ {c : Char}, c ≠ '&' → at? c rest = false := fun hc => at?_append hrest hc []
  fun_induction readBrackets t ts with
  | case1 t s e s' e' ts ih => exact ih
  | case2 t ts hne =>
    refine readBrackets.eq_2 t (ts ++ rest) ?_
    intro s e s' e' more heq
    rcases ts with _ | ⟨u, _ | ⟨v, ts⟩⟩
    · have hat := hno (c := '[') (by decide)
      rw [List.nil_append] at heq
      rw [heq] at hat
      cases hat
    · have hat := hno (c := ']') (by decide)
      rw [List.singleton_append, List.cons.injEq] at heq
      rw [heq.2] at hat
      cases hat
    · simp only [List.cons_append, List.cons.injEq] at heq
      obtain ⟨rfl, rfl, -⟩ := heq
      exact hne s e s' e' ts rfl

theorem dropVariance_append (hrest : Foreign rest) (ts : List Lexeme) :
    dropVariance (ts ++ rest) = dropVariance ts ++ rest := by
  cases ts with
  | nil =>
    rw [List.nil_append]
    show dropVariance rest = rest
    cases hts : rest with
    | nil => rfl
    | cons t more =>
      refine dropVariance_of_not_skips fun hskips => ?_
      rcases hskips.1 with ht | ht
      · exact hrest.word _ (by rw [hts, ← ht]; rfl)
      · exact hrest.word _ (by rw [hts, ← ht]; rfl)
  | cons t ts =>
    have hiff : SkipsVariance t (ts ++ rest) ↔ SkipsVariance t ts := by
      unfold SkipsVariance
      rw [at?_append hrest (by decide), at?_append hrest (by decide)]
    by_cases hskips : SkipsVariance t ts
    · rw [hskips.dropVariance_eq, List.cons_append, (hiff.mpr hskips).dropVariance_eq]
    · rw [dropVariance_of_not_skips hskips, List.cons_append,
        dropVariance_of_not_skips (mt hiff.mp hskips)]

theorem atColon_append (hrest : Foreign rest) (ts : List Lexeme) :
    atColon (ts ++ rest) = atColon ts := by
  unfold atColon
  rw [at?_append hrest (by decide), at?_append hrest (by decide)]
  cases ts with
  | nil => rfl
  | cons t ts =>
    rw [List.cons_append, List.tail_cons, at?_append hrest (by decide), List.tail_cons]

/-! ## Readers before such tokens -/

/-- What the reader takes it takes before `rest` as well, unless it leaves a single `&`. A single
`&` it leaves. -/
structure Extends (rest : List Lexeme)
    (reader : List Lexeme → Except TypeError (α × List Lexeme)) : Prop where
  passes : ∀ {amp : Lexeme} {a : α} {left : List Lexeme}, amp.token = .punct '&' →
    reader [amp] = .ok (a, left) → left = [amp]
  more : ∀ {ts : List Lexeme} {a : α} {left : List Lexeme}, reader ts = .ok (a, left) →
    ¬ Loose left → reader (ts ++ rest) = .ok (a, left ++ rest)

/-- The same where the next token is known. -/
def ExtendsAt (p : Token → Prop) (rest : List Lexeme)
    (reader : List Lexeme → Except TypeError (α × List Lexeme)) : Prop :=
  ∀ ⦃t : Lexeme⦄ ⦃ts : List Lexeme⦄ ⦃a : α⦄ ⦃left : List Lexeme⦄, p t.token →
    reader (t :: ts) = .ok (a, left) →
    ¬ Loose left → reader (t :: ts ++ rest) = .ok (a, left ++ rest)

variable {first yes no reader : List Lexeme → Except TypeError (α × List Lexeme)}

theorem extends_error (h : ∀ ts, reader ts = .error (unexpected ts)) : Extends rest reader where
  passes := by
    intro amp a left _ hread
    rw [h] at hread
    cases hread
  more := by
    intro ts a left hread
    rw [h] at hread
    cases hread

theorem extends_done (a : α) : Extends rest fun ts => .ok (a, ts) where
  passes := by
    intro amp b left _ hread
    cases hread
    rfl
  more := by
    intro ts b left hread _
    cases hread
    rfl

theorem Extends.bind {second : α → List Lexeme → Except TypeError (β × List Lexeme)}
    (h : Extends rest first) (h' : ∀ a, Extends rest (second a)) :
    Extends rest fun ts => first ts >>= fun r => second r.1 r.2 where
  passes := by
    intro amp b left hamp hread
    obtain ⟨⟨a, mid⟩, hfirst, hsecond⟩ := exists_of_bind_eq_ok hread
    obtain rfl := h.passes hamp hfirst
    exact (h' a).passes hamp hsecond
  more := by
    intro ts b left hread hloose
    obtain ⟨⟨a, mid⟩, hfirst, hsecond⟩ := exists_of_bind_eq_ok hread
    -- a single `&` that the first step left would still be there
    have hmid : ¬ Loose mid := by
      rintro ⟨amp, rfl, hamp⟩
      exact hloose ⟨amp, (h' a).passes hamp hsecond, hamp⟩
    rw [h.more hfirst hmid]
    exact (h' a).more hsecond hloose

theorem Extends.at (h : Extends rest reader) (p : Token → Prop) : ExtendsAt p rest reader :=
  fun _ _ _ _ _ hread hloose => h.more hread hloose

theorem Extends.after (h : Extends rest reader) (p : Token → Prop) :
    ExtendsAt p rest fun ts => reader ts.tail :=
  fun _ _ _ _ _ hread hloose => h.more hread hloose

theorem Extends.congr {reader' : List Lexeme → Except TypeError (α × List Lexeme)}
    (h : Extends rest reader) (heq : ∀ ts, reader' ts = reader ts) : Extends rest reader' := by
  rwa [funext heq]

theorem ExtendsAt.congr {p : Token → Prop}
    {reader' : List Lexeme → Except TypeError (α × List Lexeme)}
    (h : ExtendsAt p rest reader) (heq : ∀ ts, reader' ts = reader ts) :
    ExtendsAt p rest reader' := by
  rwa [funext heq]

/-- A choice by the next token. Where that may be the first token of `rest`, the other way is
closed at the end. -/
theorem ExtendsAt.ite {p : Token → Prop} {cond : List Lexeme → Bool} (hyes : ExtendsAt p rest yes)
    (hno : Extends rest no) (hcond : ∀ ts, cond ts = true ↔ ∃ t more, ts = t :: more ∧ p t.token)
    (hamp : ¬ p (.punct '&')) (hend : cond rest = true → ∀ r, no [] ≠ .ok r) :
    Extends rest fun ts => if cond ts then yes ts else no ts where
  passes := by
    intro amp a left htoken hread
    have hnot : ¬ cond [amp] = true := by
      rw [hcond]
      rintro ⟨t, more, heq, ht⟩
      cases heq
      exact hamp (htoken ▸ ht)
    rw [if_neg hnot] at hread
    exact hno.passes htoken hread
  more := by
    intro ts a left hread hloose
    cases ts with
    | nil =>
      have hnil : ¬ cond [] = true := by
        rw [hcond]
        rintro ⟨t, more, heq, -⟩
        cases heq
      rw [if_neg hnil] at hread
      rw [List.nil_append, if_neg fun hc => hend hc _ hread]
      exact hno.more hread hloose
    | cons t ts =>
      by_cases ht : p t.token
      · have hpos : ∀ us, cond (t :: us) = true := fun us => (hcond _).mpr ⟨t, us, rfl, ht⟩
        rw [if_pos (hpos _)] at hread
        rw [List.cons_append, if_pos (hpos _)]
        exact hyes ht hread hloose
      · have hneg : ∀ us, ¬ cond (t :: us) = true := by
          intro us
          rw [hcond]
          rintro ⟨t', more, heq, ht'⟩
          cases heq
          exact ht ht'
        rw [if_neg (hneg _)] at hread
        rw [List.cons_append, if_neg (hneg _)]
        exact hno.more hread hloose

theorem ExtendsAt.ite_at (hrest : Foreign rest) {c : Char} (hc : c ≠ '&')
    (hyes : ExtendsAt (· = .punct c) rest yes) (hno : Extends rest no) :
    Extends rest fun ts => if at? c ts then yes ts else no ts := by
  refine hyes.ite hno (fun ts => ⟨exists_cons_of_at?, ?_⟩) ?_ fun hat => absurd (hrest.mark hat) hc
  · rintro ⟨t, more, rfl, ht⟩
    exact at?_cons.mpr ht
  · simpa using hc.symm

theorem ExtendsAt.ite_at_and (hrest : Foreign rest) {c : Char} (hc : c ≠ '&')
    (hyes : ExtendsAt (· = .punct c) rest yes) (hno : Extends rest no) (b : Bool) :
    Extends rest fun ts => if at? c ts && b then yes ts else no ts := by
  cases b with
  | true =>
    simp only [Bool.and_true]
    exact hyes.ite_at hrest hc hno
  | false =>
    simp only [Bool.and_false, Bool.false_eq_true, if_false]
    exact hno

theorem ExtendsAt.ite_word (hrest : Foreign rest) {word : String}
    (hyes : ExtendsAt (IsWord word) rest yes) (hno : Extends rest no) :
    Extends rest fun ts => if atWord word ts then yes ts else no ts := by
  refine hyes.ite hno (atWord_iff word) ?_ fun hword => ?_
  · rintro ⟨text, htext, -⟩
    cases htext
  · rw [atWord_foreign hrest] at hword
    cases hword

theorem Extends.expect (h : Extends rest reader) {c : Char} (hc : c ≠ '&') :
    Extends rest fun ts => TypeExpr.expect c ts >>= reader where
  passes := by
    intro amp a left hamp hread
    have hat : at? c [amp] = false := at?_cons_of_ne [] (by rw [hamp]; simpa using hc.symm)
    simp only [TypeExpr.expect, hat, Bool.false_eq_true, if_false] at hread
    cases hread
  more := by
    intro ts a left hread hloose
    obtain ⟨us, hexpect, hnext⟩ := exists_of_bind_eq_ok hread
    unfold TypeExpr.expect at hexpect
    split at hexpect
    · rename_i hat
      obtain ⟨t, us, rfl, ht⟩ := exists_cons_of_at? hat
      cases hexpect
      have hat' : at? c (t :: us ++ rest) = true := at?_cons.mpr ht
      simp only [TypeExpr.expect, hat', if_true]
      exact h.more hnext hloose
    · cases hexpect

theorem extends_close (rest : List Lexeme) (a : α) {c : Char} (hc : c ≠ '&') :
    Extends rest fun ts => TypeExpr.expect c ts >>= fun ts => .ok (a, ts) :=
  (extends_done a).expect hc

/-- A reader that takes a token fails at the end, and at a single `&` if it leaves that. -/
theorem Local.ne_ok_nil {extra : Nat} {reader : Reader α} (h : Local extra 1 reader depth)
    (r : α × List Lexeme) :
    reader depth [] ≠ .ok r := by
  intro hread
  obtain ⟨used, hused, hle, -⟩ := h hread
  rw [(List.append_eq_nil_iff.mp hused.symm).1] at hle
  cases hle

theorem Extends.ne_ok_amp {extra : Nat} {reader : Reader α} (h : Extends rest (reader depth))
    (hlocal : Local extra 1 reader depth) {amp : Lexeme} (hamp : amp.token = .punct '&')
    (r : α × List Lexeme) :
    reader depth [amp] ≠ .ok r := by
  intro hread
  obtain ⟨used, hused, hle, -⟩ := hlocal hread
  rw [h.passes hamp hread] at hused
  have hlen := congrArg List.length hused
  rw [List.length_append] at hlen
  omega

/-! ## Unions, intersections and atoms -/

theorem extends_readUnion (hrest : Foreign rest) (hmember : Extends rest (readIntersection depth))
    (hmore : Extends rest (readAlternatives depth)) : Extends rest (readUnion (depth + 1)) := by
  have hunion := fun first => hmore.bind fun more => extends_done (TypeExpr.union (first :: more))
  exact hmember.bind fun first =>
    ((hunion first).at _).ite_at hrest (by decide) (extends_done first)

theorem extends_readAlternatives (hrest : Foreign rest)
    (hmember : Extends rest (readIntersection depth))
    (hmore : Extends rest (readAlternatives depth)) :
    Extends rest (readAlternatives (depth + 1)) := by
  have hmembers := hmember.bind fun member => hmore.bind fun more => extends_done (member :: more)
  exact (hmembers.after _).ite_at hrest (by decide) (extends_done [])

theorem extends_readIntersection (hmember : Extends rest (readPostfix depth))
    (hmore : Extends rest (readConjuncts depth)) : Extends rest (readIntersection (depth + 1)) :=
  hmember.bind fun first => hmore.bind fun more =>
    extends_done (if more.isEmpty then first else .inter (first :: more))

theorem extends_readConjuncts (hrest : Foreign rest) (hmember : Extends rest (readPostfix depth))
    (hmore : Extends rest (readConjuncts depth)) : Extends rest (readConjuncts (depth + 1)) where
  passes := by
    intro amp members left hamp hread
    have hat : atIntersection [amp] = false := by rw [atIntersection_eq]; exact Bool.and_false _
    rw [readConjuncts, if_neg (by simp [hat])] at hread
    cases hread
    rfl
  more := by
    have hmembers :=
      hmember.bind fun member => hmore.bind fun more => extends_done (member :: more)
    intro ts members left hread hloose
    rw [readConjuncts] at hread ⊢
    split at hread
    · -- the `&` and the token behind it decide, and both are there
      rename_i hat
      have hand := hat
      rw [atIntersection_eq, Bool.and_eq_true] at hand
      obtain ⟨t, ts, rfl, ht⟩ := exists_cons_of_at? hand.1
      cases ts with
      | nil => cases hand.2
      | cons u ts =>
        have hat' : atIntersection (t :: u :: ts ++ rest) = true := hat
        rw [if_pos hat']
        exact hmembers.more hread hloose
    · rename_i hat
      cases hread
      rw [atIntersection_append hrest hloose, if_neg hat]
      rfl

theorem extends_readPostfix (hrest : Foreign rest) (hatom : Extends rest (readAtom depth)) :
    Extends rest (readPostfix (depth + 1)) := by
  have hbrackets : ∀ t, Extends rest fun ts => .ok (readBrackets t ts) := by
    refine fun t => ⟨fun {amp a left} _ hread => ?_, fun {ts a left} hread _ => ?_⟩
    · have hnone : readBrackets t [amp] = (t, [amp]) := readBrackets.eq_2 t _ (by simp)
      rw [hnone] at hread
      cases hread
      rfl
    · rw [readBrackets_append hrest, Except.ok.inj hread]
  exact hatom.bind hbrackets

theorem extends_readAtom (hsuffixed : Extends rest (readPostfix depth))
    (hinner : Extends rest (readParenthesized depth))
    (hnamed : ∀ base, Extends rest (readNamed depth base)) :
    Extends rest (readAtom (depth + 1)) where
  passes := by
    intro amp a left hamp hread
    simp [readAtom, peek, hamp] at hread
  more := by
    have hnullable := hsuffixed.bind fun inner => extends_done (TypeExpr.nullable inner)
    intro ts a left hread hloose
    cases ts with
    | nil => cases hread
    | cons t ts =>
      have hpeek : ∀ us, peek (t :: us) = some t.token := fun _ => rfl
      rw [List.cons_append]
      rw [readAtom, hpeek] at hread ⊢
      split at hread
      case h_1 => exact hnullable.more hread hloose
      case h_2 => exact hinner.more hread hloose
      case h_7 text _ => exact (hnamed text).more hread hloose
      case h_8 => cases hread
      all_goals
        cases hread
        rfl

theorem extends_readNamed (hrest : Foreign rest) (hparams : Extends rest (readParams depth))
    (hfields : Extends rest (readFields depth))
    (hsignature : Extends rest (readCallableParams depth))
    (hsuffixed : Extends rest (readPostfix depth)) (base : String) :
    Extends rest (readNamed (depth + 1) base) := by
  have hgeneric := hparams.bind fun params => extends_done (TypeExpr.generic base params)
  have hshape := hfields.bind fun fields => extends_done (TypeExpr.shape base fields)
  have hresult :=
    fun params => hsuffixed.bind fun result =>
      extends_done (TypeExpr.callable base params (some result))
  have hcallable :=
    hsignature.bind fun params => ((hresult params).after _).ite_at hrest (c := ':') (by decide)
    (extends_done (TypeExpr.callable base params none))
  have hparen :=
    (hcallable.after _).ite_at_and hrest (c := '(') (by decide) (extends_done (TypeExpr.name base))
    (callableBases.contains (lower base))
  have hbrace :=
    (hshape.after _).ite_at_and hrest (c := '\x7b') (by decide) hparen
      (shapeBases.contains (lower base))
  exact (hgeneric.after _).ite_at hrest (c := '<') (by decide) hbrace

theorem extendsAt_readConditional (hrest : Foreign rest)
    (hunion : Extends rest (readUnion depth)) :
    ExtendsAt (IsWord "is") rest (readConditional (depth + 1)) := by
  have hend := fun yes no => extends_close rest (TypeExpr.conditional yes no)
      (c := ')') (by decide)
  have hno := fun yes => (hunion.bind fun no => hend yes no).expect (c := ':') (by decide)
  have hyes := (hunion.bind fun yes => hno yes).expect (c := '?') (by decide)
  have htest := hunion.bind fun _ => hyes
  have hnot := ((htest.after (IsWord "not")).ite_word hrest htest).after (IsWord "is")
  refine hnot.congr fun ts => ?_
  rw [readConditional]
  split
  · rfl
  · rfl

theorem extends_readParenthesized (hrest : Foreign rest) (hunion : Extends rest (readUnion depth))
    (hlocal : Local 4 1 readUnion depth)
    (hconditional : ExtendsAt (IsWord "is") rest (readConditional depth)) :
    Extends rest (readParenthesized (depth + 1)) := by
  have hclose := fun inner : TypeExpr => extends_close rest inner (c := ')') (by decide)
  have hinner := hunion.bind fun inner => hconditional.ite_word hrest (hclose inner)
  refine ⟨fun {amp} a left hamp hread => ?_, fun {ts} a left hread hloose => ?_⟩
  · have hnot : startsConditional [amp] = false := by simp [startsConditional, peek, hamp]
    rw [readParenthesized_succ, hnot, if_neg Bool.false_ne_true] at hread
    exact hinner.passes hamp hread
  · rw [readParenthesized_succ] at hread ⊢
    by_cases hstarts : startsConditional ts = true
    · obtain ⟨t, is, more, rfl, -, his⟩ := exists_of_startsConditional hstarts
      rw [if_pos hstarts] at hread
      have hstarts' : startsConditional (t :: is :: more ++ rest) = true := hstarts
      rw [if_pos hstarts']
      exact hconditional his hread hloose
    · rw [if_neg hstarts] at hread
      have hstarts' : ¬ startsConditional (ts ++ rest) = true := by
        rcases ts with _ | ⟨t, _ | ⟨u, ts⟩⟩
        · obtain ⟨r, hr, -⟩ := exists_of_bind_eq_ok hread
          exact absurd hr (hlocal.ne_ok_nil r)
        · intro h
          obtain ⟨_, is, more, heq, -, his⟩ := exists_of_startsConditional h
          rw [List.singleton_append, List.cons.injEq] at heq
          have hword := atWord_foreign hrest "is"
          rw [(atWord_iff "is" rest).mpr ⟨is, more, heq.2, his⟩] at hword
          cases hword
        · exact hstarts
      rw [if_neg hstarts']
      exact hinner.more hread hloose

/-! ## Lists in brackets -/

/-- An item of a list is taken again before `rest`, if a token other than `&` is left of the list.
At a single `&` there is no item. -/
structure ExtendsItem (rest : List Lexeme)
    (item : List Lexeme → Except TypeError (α × List Lexeme)) : Prop where
  nil : ∀ r, item [] ≠ .ok r
  amp : ∀ {amp : Lexeme}, amp.token = .punct '&' → ∀ r, item [amp] ≠ .ok r
  more : ∀ {ts : List Lexeme} {x : α} {mark : Lexeme} {left : List Lexeme},
    item ts = .ok (x, mark :: left) →
    mark.token ≠ .punct '&' → item (ts ++ rest) = .ok (x, mark :: left ++ rest)

theorem Extends.item {extra : Nat} {reader : Reader α} (h : Extends rest (reader depth))
    (hlocal : Local extra 1 reader depth) : ExtendsItem rest (reader depth) where
  nil := hlocal.ne_ok_nil
  amp := h.ne_ok_amp hlocal
  more := by
    intro ts x mark left hread hmark
    refine h.more hread ?_
    rintro ⟨amp, heq, hamp⟩
    cases heq
    exact hmark hamp

theorem ExtendsItem.list (hrest : Foreign rest)
    {item : List Lexeme → Except TypeError (α × List Lexeme)} (hitem : ExtendsItem rest item)
    {tail : List Lexeme → Except TypeError (List α × List Lexeme)}
    (htail : Extends rest tail) {c : Char} (hc : c ≠ '&') :
    Extends rest fun ts => item ts >>= fun r =>
      if at? ',' r.2 then tail r.2.tail >>= fun more => .ok (r.1 :: more.1, more.2)
      else TypeExpr.expect c r.2 >>= fun ts => .ok ([r.1], ts) where
  passes := by
    intro amp xs left hamp hread
    obtain ⟨r, hr, -⟩ := exists_of_bind_eq_ok hread
    exact absurd hr (hitem.amp hamp r)
  more := by
    have hmore := fun x => htail.bind fun more => extends_done (x :: more)
    have hnext :=
      fun x => ((hmore x).after _).ite_at hrest (c := ',') (by decide) (extends_close rest [x] hc)
    intro ts xs left hread hloose
    obtain ⟨⟨x, mid⟩, hx, hread'⟩ := exists_of_bind_eq_ok hread
    -- behind the item stands a comma or the closing bracket
    obtain ⟨mark, more, rfl, hmark⟩ : ∃ mark more, mid = mark :: more ∧
        mark.token ≠ .punct '&' := by
      dsimp only at hread'
      split at hread'
      · rename_i hat
        obtain ⟨mark, more, rfl, ht⟩ := exists_cons_of_at? hat
        exact ⟨mark, more, rfl, by rw [ht]; decide⟩
      · obtain ⟨us, hexpect, -⟩ := exists_of_bind_eq_ok hread'
        unfold TypeExpr.expect at hexpect
        split at hexpect
        · rename_i hat
          obtain ⟨mark, more, rfl, ht⟩ := exists_cons_of_at? hat
          exact ⟨mark, more, rfl, by rw [ht]; simpa using hc⟩
        · cases hexpect
    rw [hitem.more hx hmark]
    exact (hnext x).more hread' hloose

theorem extends_readParams (hrest : Foreign rest) (hunion : Extends rest (readUnion depth))
    (hlocal : Local 4 1 readUnion depth) (hmore : Extends rest (readParams depth)) :
    Extends rest (readParams (depth + 1)) := by
  have hitem : ExtendsItem rest fun ts => readUnion depth (dropVariance ts) := by
    refine ⟨hlocal.ne_ok_nil, fun {amp} hamp r => ?_, fun {ts x mark left} hread hmark => ?_⟩
    · have hskips : ¬ SkipsVariance amp [] := by
        rintro ⟨h | h, -⟩
        · rw [hamp] at h; cases h
        · rw [hamp] at h; cases h
      rw [dropVariance_of_not_skips hskips]
      exact hunion.ne_ok_amp hlocal hamp r
    · rw [dropVariance_append hrest]
      exact (hunion.item hlocal).more hread hmark
  have hlist := hitem.list hrest hmore (c := '>') (by decide)
  exact ((extends_done []).after _).ite_at hrest (by decide) hlist

theorem extends_readCallableParams (hrest : Foreign rest) (hunion : Extends rest (readUnion depth))
    (hlocal : Local 4 1 readUnion depth) (hmore : Extends rest (readCallableParams depth)) :
    Extends rest (readCallableParams (depth + 1)) := by
  have hitem : ExtendsItem rest fun ts => readUnion depth ts >>= fun r =>
    .ok (r.1, dropParameterMarks r.2) := by
    refine ⟨fun r hread => ?_, fun {amp} hamp r hread => ?_, fun {ts x mark left} hread _ => ?_⟩
    · obtain ⟨r', hr', -⟩ := exists_of_bind_eq_ok hread
      exact hlocal.ne_ok_nil r' hr'
    · obtain ⟨r', hr', -⟩ := exists_of_bind_eq_ok hread
      exact hunion.ne_ok_amp hlocal hamp r' hr'
    · obtain ⟨⟨t, mid⟩, ht, hresult⟩ := exists_of_bind_eq_ok hread
      obtain ⟨rfl, hdrop⟩ := Prod.mk.inj (Except.ok.inj hresult)
      obtain ⟨dropped, hmid, -, hagain⟩ := drops_dropParameterMarks hdrop
      -- the marks of a parameter include a single `&`, behind which nothing would be left
      have hloose : ¬ Loose mid := by
        rintro ⟨amp, rfl, hamp⟩
        have hnone : dropParameterMarks [amp] = [] := by
          simp [dropParameterMarks, dropPunct, at?, peek, hamp]
        rw [hnone] at hdrop
        cases hdrop
      have hdrop' : dropParameterMarks (mid ++ rest) = mark :: left ++ rest := by
        have hfront : mid = dropped ++ mark :: left := hmid
        rw [hfront, List.append_assoc, List.cons_append, hagain]
      rw [hunion.more ht hloose]
      exact congrArg (fun left => Except.ok (t, left)) hdrop'
  have hlist := hitem.list hrest hmore (c := ')') (by decide)
  refine (((extends_done []).after (· = .punct ')')).ite_at hrest (by decide) hlist).congr
    fun ts => ?_
  rw [readCallableParams]
  split
  · rfl
  · cases readUnion depth ts <;> rfl

/-! ## Fields of a shape -/

theorem extends_readField (hrest : Foreign rest) (hunion : Extends rest (readUnion depth))
    (hlocal : Local 4 1 readUnion depth) : Extends rest (readField (depth + 1)) where
  passes := by
    intro amp field left hamp hread
    have hkey : fieldKey? [amp] = none := by
      rw [fieldKey?_cons]
      exact if_neg Bool.false_ne_true
    rw [readField, hkey] at hread
    obtain ⟨r, hr, -⟩ := exists_of_bind_eq_ok hread
    exact absurd hr (hunion.ne_ok_amp hlocal hamp r)
  more := by
    intro ts field left hread hloose
    have hvalue :=
      fun key optional => hunion.bind fun value => extends_done (ShapeField.mk key optional value)
    cases hkey : fieldKey? ts with
    | none =>
      rw [readField, hkey] at hread
      cases ts with
      | nil =>
        obtain ⟨r, hr, -⟩ := exists_of_bind_eq_ok hread
        exact absurd hr (hlocal.ne_ok_nil r)
      | cons t ts =>
        have hkey' : fieldKey? (t :: ts ++ rest) = none := by
          rw [List.cons_append, fieldKey?_cons, atColon_append hrest, ← fieldKey?_cons, hkey]
        rw [readField, hkey']
        exact (hvalue none false).more hread hloose
    | some key =>
      obtain ⟨label, more, optional, rfl, -, hfield⟩ := exists_of_fieldKey? hkey
      rw [hfield] at hread
      rw [List.append_assoc, hfield]
      exact (hvalue (some key) optional).more hread hloose

theorem extends_readFields (hrest : Foreign rest) (hfield : Extends rest (readField depth))
    (hlocal : Local 5 1 readField depth) (hmore : Extends rest (readFields depth)) :
    Extends rest (readFields (depth + 1)) := by
  have hopen :=
    (extends_close rest ([] : List ShapeField) (c := '\x7d') (by decide)).after (· = .ellipsis)
  have hlist := (hfield.item hlocal).list hrest hmore (c := '\x7d') (by decide)
  have hellipsis : ∀ ts, (peek ts == some .ellipsis) = true ↔ ∃ t more, ts = t :: more ∧
      t.token = .ellipsis := by
    intro ts
    cases ts <;> simp [peek]
  -- `...` may be the first token of `rest`, but no field is read at the end
  have hfields := hopen.ite hlist hellipsis (by simp) fun _ r hread => by
    obtain ⟨r', hr', -⟩ := exists_of_bind_eq_ok hread
    exact hlocal.ne_ok_nil r' hr'
  exact ((extends_done []).after _).ite_at hrest (c := '\x7d') (by decide) hfields

/-! ## All readers -/

/-- All readers of types at a depth, before `rest`. -/
structure ExtendsReaders (rest : List Lexeme) (depth : Nat) : Prop where
  union : Extends rest (readUnion depth)
  alternatives : Extends rest (readAlternatives depth)
  intersection : Extends rest (readIntersection depth)
  conjuncts : Extends rest (readConjuncts depth)
  suffixed : Extends rest (readPostfix depth)
  atom : Extends rest (readAtom depth)
  named : ∀ base, Extends rest (readNamed depth base)
  parenthesized : Extends rest (readParenthesized depth)
  conditional : ExtendsAt (IsWord "is") rest (readConditional depth)
  params : Extends rest (readParams depth)
  fields : Extends rest (readFields depth)
  field : Extends rest (readField depth)
  callableParams : Extends rest (readCallableParams depth)

theorem extendsReaders (hrest : Foreign rest) (depth : Nat) : ExtendsReaders rest depth := by
  induction depth with
  | zero =>
    refine ⟨extends_error fun _ => rfl, extends_error fun _ => rfl, extends_error fun _ => rfl,
      extends_error fun _ => rfl, extends_error fun _ => rfl, extends_error fun _ => rfl,
      fun _ => extends_error fun _ => rfl, extends_error fun _ => rfl,
      (extends_error fun _ => rfl).at _, extends_error fun _ => rfl, extends_error fun _ => rfl,
      extends_error fun _ => rfl, extends_error fun _ => rfl⟩
  | succ depth ih =>
    have hlocal := localReaders depth
    exact {
      union := extends_readUnion hrest ih.intersection ih.alternatives
      alternatives := extends_readAlternatives hrest ih.intersection ih.alternatives
      intersection := extends_readIntersection ih.suffixed ih.conjuncts
      conjuncts := extends_readConjuncts hrest ih.suffixed ih.conjuncts
      suffixed := extends_readPostfix hrest ih.atom
      atom := extends_readAtom ih.suffixed ih.parenthesized ih.named
      named := extends_readNamed hrest ih.params ih.fields ih.callableParams ih.suffixed
      parenthesized := extends_readParenthesized hrest ih.union hlocal.union ih.conditional
      conditional := extendsAt_readConditional hrest ih.union
      params := extends_readParams hrest ih.union hlocal.union ih.params
      fields := extends_readFields hrest ih.field hlocal.field ih.fields
      field := extends_readField hrest ih.union hlocal.union
      callableParams := extends_readCallableParams hrest ih.union hlocal.union ih.callableParams }

/-! ## The type at the start of a text -/

/-- Every quoted text among the tokens is closed. -/
def QuotesClosed (input : List Char) : Prop :=
  ∀ text, .quoted text ∈ tokensOf input → isQuoted text = true

/-- A token ends before a blank that is put behind the text, if it is closed. -/
theorem tokenAt_append_blank {c b : Char} {cs : List Char} (hc : isBlank c = false)
    (hb : isBlank b = true) (hclosed : ∀ text, tokenAt c cs = .quoted text → isQuoted text = true)
    (rest : List Char) :
    tokenAt c (cs ++ b :: rest) = tokenAt c cs := by
  by_cases hquote : c = '\'' ∨ c = '"'
  · have hne : c ≠ '\\' := by rcases hquote with rfl | rfl <;> decide
    have hcloses := hclosed _ (tokenAt_quote hquote cs)
    simp only [isQuoted, String.toList_ofList, Bool.and_eq_true] at hcloses
    obtain ⟨tail, htail⟩ := isPrefix_quotedAt c cs
    rw [tokenAt_quote hquote, tokenAt_quote hquote]
    -- the quoted text is taken up to its quote, whatever is behind that
    have hsame : quotedAt c (cs ++ b :: rest) = quotedAt c cs := by
      rw [← htail, List.append_assoc, quotedAt_append hne hcloses.2, quotedAt_append hne hcloses.2]
    rw [hsame]
  · exact (tokenAt_of_shorter (List.prefix_append cs _) (length_tokenAt_le hc hquote hb rest)).symm

theorem tokensFrom_append_blank (pos : Nat) {input : List Char} {b : Char} (hb : isBlank b = true)
    (hclosed : QuotesClosed input) (rest : List Char) :
    tokensFrom pos (input ++ b :: rest) =
      tokensFrom pos input ++ tokensFrom (pos + bytes input) (b :: rest) := by
  match input with
  | [] => rfl
  | c :: cs =>
    by_cases hc : isBlank c = true
    · have hclosed' : QuotesClosed cs := by
        intro text htext
        exact hclosed text (by rwa [tokensOf_blank hc])
      rw [List.cons_append, tokensFrom_blank hc, tokensFrom_blank hc,
        tokensFrom_append_blank _ hb hclosed' rest, bytes_cons, Nat.add_assoc]
    · rw [Bool.not_eq_true] at hc
      have htoken : tokenAt c (cs ++ b :: rest) = tokenAt c cs := by
        refine tokenAt_append_blank hc hb (fun text htext => hclosed text ?_) rest
        rw [tokensOf_cons hc, htext]
        exact List.mem_cons_self
      obtain ⟨tail, htail⟩ := isPrefix_text_tokenAt c cs
      have hdrop : (c :: cs).drop (tokenAt c cs).text.toList.length = tail := by
        rw [← htail, List.drop_left]
      have hdrop' : (c :: (cs ++ b :: rest)).drop (tokenAt c cs).text.toList.length =
          tail ++ b :: rest := by
        rw [← List.cons_append, ← htail, List.append_assoc, List.drop_left]
      have hclosed' : QuotesClosed tail := by
        intro text htext
        refine hclosed text ?_
        rw [tokensOf_cons hc, hdrop]
        exact List.mem_cons_of_mem _ htext
      have hlen : tail.length ≤ cs.length := hdrop ▸ length_drop_tokenAt c cs
      rw [List.cons_append, tokensFrom_cons hc, tokensFrom_cons hc, htoken]
      dsimp only
      rw [hdrop, hdrop', tokensFrom_append_blank _ hb hclosed' rest, List.cons_append, ← htail,
        bytes_append, Nat.add_assoc]
termination_by input.length

/-- A type is read at the start of a text in which foreign tokens follow it behind a blank. -/
theorem readPrefix_append {input : List Char} {t : TypeExpr} (h : read input = .ok t)
    (hclosed : QuotesClosed input) {b : Char} (hb : isBlank b = true) {rest : List Char}
    (hrest : Foreign (tokensFrom (bytes input) (b :: rest))) :
    ∃ front tail, input = front ++ tail ∧ (∀ c ∈ tail, isBlank c = true) ∧
      readPrefix (input ++ b :: rest) = .ok (t, bytes front) := by
  obtain ⟨front, tail, hinput, htail, hnil, hlast⟩ := scan_last 0 (Nat.le_refl input.length)
  have htokens := tokensFrom_append_blank 0 hb hclosed rest
  rw [Nat.zero_add] at htokens
  have hall : lexemes (input ++ b :: rest) =
      lexemes input ++ tokensFrom (bytes input) (b :: rest) := htokens
  refine ⟨front, tail, hinput, htail, ?_⟩
  -- enough depth for the longer text is enough for the shorter one
  have hdepth : 8 * (lexemes input).length + 4 ≤ readingDepth (lexemes (input ++ b :: rest)) := by
    rw [readingDepth, hall, List.length_append]
    omega
  have hshort := (takes_of_read h).again (.nil []) hdepth
  rw [List.append_nil] at hshort
  have hlong := (extendsReaders hrest _).union.more hshort (by rintro ⟨_, hamp, -⟩; cases hamp)
  rw [← hall, List.nil_append] at hlong
  simp only [Nat.zero_add] at hlast
  have hconsumed :=
    consumed_append (fun hempty => by rw [hnil hempty]; rfl) hlast
      (tokensFrom (bytes input) (b :: rest))
  change consumed (lexemes input ++ _) _ = bytes front at hconsumed
  rw [← hall] at hconsumed
  rw [readPrefix]
  dsimp only
  rw [hlong]
  exact congrArg (fun n => Except.ok (t, n)) hconsumed

end ClassDocs.TypeExpr

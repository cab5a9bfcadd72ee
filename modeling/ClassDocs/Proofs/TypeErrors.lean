import ClassDocs.Proofs.TokenSpans
import ClassDocs.Proofs.Trimming
import ClassDocs.Proofs.TypeEnd

/-!
# Where reading a type fails

A text that is no type is refused with the place where reading came to an end: a token that fits
nowhere, the end of the text, or a piece that is left over. The readers hand on the tokens that are
left, and every failure is about those, so it is enough to know what a reader says of the tokens it
was given.

At the end of the text there is no token to point at. That reading came so far shows when more
tokens follow. Put some behind the text of which the first is no part of any type: a reader that
takes tokens takes the same ones, or goes on to the new ones and fails there, and a reader that
asks for more fails there too (`Probed`). So a text that ends too early is one whose tokens were
all taken (`NeedsMore`). The induction is on the depth of calls, over all readers at once.

A token knows its offset, so a failure at a token is a place in the text, with whole tokens and
white space in front of it. The three kinds of error are put together in `Points`.
-/

namespace ClassDocs.TypeExpr

open ClassDocs.Text

variable {α β : Type} {depth : Nat} {ts rest : List Lexeme}

/-! ## Tokens that are no part of a type -/

/-- The first of these tokens is no part of any type. -/
def Misfit (rest : List Lexeme) : Prop := ∃ mark more, rest = mark :: more ∧ ¬ mark.token.Proper

theorem Misfit.exists_other (h : Misfit rest) :
    ∃ mark more c, rest = mark :: more ∧ mark.token = .other c := by
  obtain ⟨mark, more, rfl, hmark⟩ := h
  simp only [Token.Proper, not_forall, Decidable.not_not] at hmark
  obtain ⟨c, hc⟩ := hmark
  exact ⟨mark, more, c, rfl, hc⟩

theorem Misfit.foreign (h : Misfit rest) : Foreign rest := by
  obtain ⟨mark, more, c, rfl, hmark⟩ := h.exists_other
  have hat : ∀ c, at? c (mark :: more) = false :=
    fun c => at?_cons_of_ne more (by rw [hmark]; simp)
  refine ⟨fun {c} h => ?_, fun text htext => ?_, ?_⟩
  · rw [hat c] at h
    cases h
  · simp [peek, hmark] at htext
  · rw [atIntersection_eq, hat, Bool.false_and]

/-- A choice by the next token is the same at the end as before a token that is no part of a
type. -/
theorem Misfit.peek_append (h : Misfit rest) {f : Option Token → β}
    (hf : ∀ c, f (some (.other c)) = f none) (ts : List Lexeme) :
    f (peek (ts ++ rest)) = f (peek ts) := by
  obtain ⟨mark, more, c, rfl, hmark⟩ := h.exists_other
  cases ts with
  | nil =>
    have hpeek : peek (mark :: more) = some (.other c) := congrArg some hmark
    exact (congrArg f hpeek).trans (hf c)
  | cons t ts => rfl

theorem Misfit.at?_append (h : Misfit rest) (c : Char) (ts : List Lexeme) :
    at? c (ts ++ rest) = at? c ts :=
  h.peek_append (f := (· == some (.punct c))) (fun _ => rfl) ts

theorem Misfit.atWord_append (h : Misfit rest) (word : String) (ts : List Lexeme) :
    atWord word (ts ++ rest) = atWord word ts := by
  cases ts with
  | nil => exact atWord_foreign h.foreign word
  | cons t ts => rfl

/-! ## One outcome and the other -/

/--
What came of the tokens `ts`, and what comes of them if `rest` stands behind. What was taken is
taken again, unless `rest` is reached and refused. A failure is at one of the tokens, or is that
there are too few, and then `rest` is refused.
-/
inductive Probed (rest ts : List Lexeme) :
    Except TypeError (α × List Lexeme) → Except TypeError (α × List Lexeme) → Prop where
  | takes {a : α} {left : List Lexeme} {x' : Except TypeError (α × List Lexeme)} : left <:+ ts →
      x' = .ok (a, left ++ rest) ∨ x' = .error (unexpected rest) →
        Probed rest ts (.ok (a, left)) x'
  | refuses {t : Lexeme} {more : List Lexeme} {x' : Except TypeError (α × List Lexeme)} :
      t :: more <:+ ts → Probed rest ts (.error (unexpected (t :: more))) x'
  | ends : Probed rest ts (.error .unexpectedEnd) (.error (unexpected rest))

variable {x x' : Except TypeError (α × List Lexeme)}

theorem Probed.mono {us : List Lexeme} (h : Probed rest us x x') (hsuffix : us <:+ ts) :
    Probed rest ts x x' := by
  cases h with
  | takes hleft hx' => exact .takes (hleft.trans hsuffix) hx'
  | refuses hleft => exact .refuses (hleft.trans hsuffix)
  | ends => exact .ends

theorem Probed.reached (h : Probed rest ts x x') :
    Probed rest ts x (.error (unexpected rest)) := by
  cases h with
  | takes hleft _ => exact .takes hleft (Or.inr rfl)
  | refuses hleft => exact .refuses hleft
  | ends => exact .ends

theorem probed_ok (a : α) : Probed rest ts (.ok (a, ts)) (.ok (a, ts ++ rest)) :=
  .takes (List.suffix_refl ts) (Or.inl rfl)

theorem probed_unexpected :
    Probed (α := α) rest ts (.error (unexpected ts)) (.error (unexpected (ts ++ rest))) := by
  cases ts with
  | nil => exact .ends
  | cons t ts => exact .refuses (List.suffix_refl _)

theorem Probed.bind {f f' : α × List Lexeme → Except TypeError (β × List Lexeme)}
    (h : Probed rest ts x x')
    (hf : ∀ a left, left <:+ ts → Probed rest left (f (a, left)) (f' (a, left ++ rest))) :
    Probed rest ts (x >>= f) (x' >>= f') := by
  cases h with
  | @takes a left _ hleft hx' =>
    have hnext := (hf a left hleft).mono hleft
    rcases hx' with rfl | rfl
    · exact hnext
    · -- the first step failed at `rest` already, so it does not matter how the second one would go
      -- on
      exact hnext.reached
  | refuses hleft => exact .refuses hleft
  | ends => exact .ends

/-! ## Readers -/

variable {extra : Nat}

/-- What the reader makes of tokens for which the depth is enough, beside what it makes of them
with `rest` behind, at any larger depth. Each token counts for eight calls. -/
def Probes (rest : List Lexeme) (extra : Nat) (reader : Reader α) (depth : Nat) : Prop :=
  ∀ ⦃ts : List Lexeme⦄ ⦃depth' : Nat⦄, 8 * ts.length + extra ≤ depth → depth ≤ depth' →
    Probed rest ts (reader depth ts) (reader depth' (ts ++ rest))

theorem Probes.mono {reader : Reader α} (h : Probes rest extra reader depth) (extra' : Nat)
    (hextra : extra ≤ extra') :
    Probes rest extra' reader depth :=
  fun _ _ hdepth hle => h (by omega) hle

theorem probes_zero {reader : Reader α} (hextra : 0 < extra) : Probes rest extra reader 0 :=
  fun _ _ hdepth _ => by omega

/-- One call deeper. -/
theorem Probes.succ {reader body : Reader α} (h : Probes rest extra body depth)
    (hreader : ∀ depth ts, reader (depth + 1) ts = body depth ts) :
    Probes rest (extra + 1) reader (depth + 1) := by
  intro ts depth' hdepth hle
  obtain ⟨depth', rfl⟩ : ∃ d, depth' = d + 1 := ⟨depth' - 1, by omega⟩
  rw [hreader, hreader]
  exact h (by omega) (by omega)

theorem probes_ok (a : α) : Probes rest extra (fun _ ts => .ok (a, ts)) depth :=
  fun _ _ _ _ => probed_ok a

theorem Probes.bind {first : Reader α} {second : α → Reader β} (h : Probes rest extra first depth)
    (h' : ∀ a, Probes rest extra (second a) depth) :
    Probes rest extra
      (fun depth ts => first depth ts >>= fun r => second r.1 depth r.2) depth := by
  intro ts depth' hdepth hle
  refine (h hdepth hle).bind fun a left hleft => h' a ?_ hle
  have := hleft.length_le
  omega

/-- A choice that does not look beyond the tokens. -/
theorem Probes.ite {yes no : Reader α} {cond : List Lexeme → Bool}
    (hyes : Probes rest extra yes depth) (hno : Probes rest extra no depth)
    (hcond : ∀ ts, cond (ts ++ rest) = cond ts) :
    Probes rest extra (fun depth ts => if cond ts then yes depth ts else no depth ts) depth := by
  intro ts depth' hdepth hle
  dsimp only
  rw [hcond]
  cases cond ts with
  | true => exact hyes hdepth hle
  | false => exact hno hdepth hle

/-- A choice by the next token, which leaves eight more calls to what follows that token. -/
theorem probes_ite_first (yes : Reader α) {no : Reader α} {cond : List Lexeme → Bool}
    (hyes : ∀ t, Probes rest (extra + 8) (fun depth ts => yes depth (t :: ts)) depth)
    (hno : Probes rest extra no depth) (hnil : cond [] = false)
    (hcond : ∀ ts, cond (ts ++ rest) = cond ts) :
    Probes rest extra (fun depth ts => if cond ts then yes depth ts else no depth ts) depth := by
  intro ts depth' hdepth hle
  dsimp only
  rw [hcond]
  cases hc : cond ts with
  | true =>
    cases ts with
    | nil => rw [hnil] at hc; cases hc
    | cons t ts =>
      rw [List.length_cons] at hdepth
      exact (hyes t (by omega) hle).mono (List.suffix_cons t ts)
  | false => exact hno hdepth hle

/-- The same where that token is skipped. -/
theorem probes_ite_skip (cond : List Lexeme → Bool) {yes no : Reader α}
    (hyes : Probes rest (extra + 8) yes depth) (hno : Probes rest extra no depth)
    (hnil : cond [] = false) (hcond : ∀ ts, cond (ts ++ rest) = cond ts) :
    Probes rest extra (fun depth ts => if cond ts then yes depth ts.tail else no depth ts) depth :=
  probes_ite_first (fun depth ts => yes depth ts.tail) (fun _ => hyes) hno hnil hcond

theorem Probes.ite_at {yes no : Reader α} (hyes : Probes rest (extra + 8) yes depth)
    (hno : Probes rest extra no depth) (hrest : Misfit rest) (c : Char) :
    Probes rest extra
      (fun depth ts => if at? c ts then yes depth ts.tail else no depth ts) depth :=
  probes_ite_skip (at? c) hyes hno rfl (hrest.at?_append c)

theorem Probes.ite_at_and {yes no : Reader α} (hyes : Probes rest (extra + 8) yes depth)
    (hno : Probes rest extra no depth) (hrest : Misfit rest) (c : Char) (b : Bool) :
    Probes rest extra
      (fun depth ts => if at? c ts && b then yes depth ts.tail else no depth ts) depth := by
  cases b with
  | true =>
    simp only [Bool.and_true]
    exact hyes.ite_at hno hrest c
  | false =>
    simp only [Bool.and_false, Bool.false_eq_true, if_false]
    exact hno

/-- A mark that has to be there, and what follows it. -/
theorem Probes.expect {reader : Reader α} (h : Probes rest extra reader depth)
    (hrest : Misfit rest) (c : Char) :
    Probes rest extra
      (fun depth ts => TypeExpr.expect c ts >>= fun ts => reader depth ts) depth := by
  intro ts depth' hdepth hle
  simp only [TypeExpr.expect, hrest.at?_append]
  cases hat : at? c ts with
  | true =>
    obtain ⟨t, ts, rfl, -⟩ := exists_cons_of_at? hat
    rw [List.length_cons] at hdepth
    exact (@h ts depth' (by omega) hle).mono (List.suffix_cons t ts)
  | false => exact probed_unexpected

/-! ## Tokens that are skipped -/

/-- Tokens are dropped from the front, and none of `rest`. -/
structure Skips (rest : List Lexeme) (drop : List Lexeme → List Lexeme) : Prop where
  suffix : ∀ ts, drop ts <:+ ts
  append : ∀ ts, drop (ts ++ rest) = drop ts ++ rest

theorem Skips.comp {drop drop' : List Lexeme → List Lexeme} (h : Skips rest drop)
    (h' : Skips rest drop') :
    Skips rest fun ts => drop' (drop ts) where
  suffix ts := (h'.suffix _).trans (h.suffix ts)
  append ts := by rw [h.append, h'.append]

/-- The next token is dropped or not. -/
theorem skips_first {cond : List Lexeme → Bool} (hnil : cond [] = false)
    (hcond : ∀ ts, cond (ts ++ rest) = cond ts) :
    Skips rest fun ts => if cond ts then ts.tail else ts where
  suffix ts := by
    split
    · exact List.tail_suffix ts
    · exact List.suffix_refl ts
  append ts := by
    rw [hcond]
    cases ts with
    | nil => simp [hnil]
    | cons t ts => cases cond (t :: ts) <;> rfl

theorem Probes.skip {reader : Reader α} (h : Probes rest extra reader depth)
    {drop : List Lexeme → List Lexeme} (hdrop : Skips rest drop) :
    Probes rest extra (fun depth ts => reader depth (drop ts)) depth := by
  intro ts depth' hdepth hle
  have hlen := (hdrop.suffix ts).length_le
  dsimp only
  rw [hdrop.append]
  exact (h (by omega) hle).mono (hdrop.suffix ts)

/-! ## Unions, intersections and `[]` -/

theorem probes_readUnion (hrest : Misfit rest) (hmember : Probes rest 3 readIntersection depth)
    (hmore : Probes rest 1 readAlternatives depth) : Probes rest 4 readUnion (depth + 1) := by
  have hunion :=
    fun first => (hmore.mono 3 (by omega)).bind fun more =>
      probes_ok (TypeExpr.union (first :: more))
  exact (hmember.bind fun first => (hunion first).ite (probes_ok first)
    (hrest.at?_append '|')).succ fun _ _ => rfl

theorem probes_readAlternatives (hrest : Misfit rest)
    (hmember : Probes rest 3 readIntersection depth)
    (hmore : Probes rest 1 readAlternatives depth) :
    Probes rest 1 readAlternatives (depth + 1) := by
  have hmembers := (hmember.mono (0 + 8) (by omega)).bind fun member =>
    (hmore.mono (0 + 8) (by omega)).bind fun more => probes_ok (member :: more)
  exact (hmembers.ite_at (probes_ok []) hrest '|').succ fun _ _ => rfl

theorem probes_readIntersection (hmember : Probes rest 2 readPostfix depth)
    (hmore : Probes rest 1 readConjuncts depth) : Probes rest 3 readIntersection (depth + 1) :=
  (hmember.bind fun first => (hmore.mono 2 (by omega)).bind fun more =>
    probes_ok (if more.isEmpty then first else .inter (first :: more))).succ fun _ _ => rfl

theorem readPostfix_misfit (hrest : Misfit rest) (depth : Nat) :
    readPostfix depth rest = .error (unexpected rest) := by
  obtain ⟨mark, more, c, rfl, hmark⟩ := hrest.exists_other
  rcases depth with _ | _ | depth
  · rfl
  · rfl
  · simp only [readPostfix, readAtom, peek, List.head?_cons, Option.map_some, hmark]
    rfl

theorem probes_readConjuncts (hrest : Misfit rest) (hmember : Probes rest 2 readPostfix depth)
    (hmore : Probes rest 1 readConjuncts depth) : Probes rest 1 readConjuncts (depth + 1) := by
  have hmembers := (hmember.mono 8 (by omega)).bind fun member =>
    (hmore.mono 8 (by omega)).bind fun more => probes_ok (member :: more)
  suffices hbody : Probes rest 0 (fun depth ts => readConjuncts (depth + 1) ts) depth
      from hbody.succ fun _ _ => rfl
  intro ts depth' hdepth hle
  simp only [readConjuncts]
  cases hat : atIntersection ts with
  | true =>
    -- the `&` and the token behind it decide, and both are there
    have hand := hat
    rw [atIntersection_eq, Bool.and_eq_true] at hand
    obtain ⟨amp, ts, rfl, -⟩ := exists_cons_of_at? hand.1
    cases ts with
    | nil => cases hand.2
    | cons u ts =>
      have hat' : atIntersection (amp :: u :: ts ++ rest) = true := hat
      rw [if_pos rfl, if_pos hat']
      rw [List.length_cons] at hdepth
      exact (@hmembers (u :: ts) depth' (by omega) hle).mono (List.suffix_cons amp _)
  | false =>
    rw [if_neg Bool.false_ne_true]
    by_cases hloose : Loose ts
    · -- behind a single `&` the new token is taken for the start of a type
      obtain ⟨amp, rfl, hamp⟩ := hloose
      have hat' : atIntersection ([amp] ++ rest) = true := by
        obtain ⟨mark, more, c, rfl, hmark⟩ := hrest.exists_other
        rw [List.singleton_append, atIntersection_eq, at?_cons.mpr hamp]
        simp [peek, hmark, Token.marksReference]
      rw [if_pos hat', List.singleton_append, List.tail_cons, readPostfix_misfit hrest]
      exact .takes (List.suffix_refl _) (Or.inr rfl)
    · rw [atIntersection_append hrest.foreign hloose, hat, if_neg Bool.false_ne_true]
      exact probed_ok []

theorem probes_readPostfix (hrest : Misfit rest) (hatom : Probes rest 1 readAtom depth) :
    Probes rest 2 readPostfix (depth + 1) := by
  have hbrackets : ∀ t, Probes rest 1 (fun _ ts => .ok (readBrackets t ts)) depth := by
    intro t ts depth' _ _
    have hlocal : Local 0 0 (fun _ ts => .ok (readBrackets t ts)) depth := local_readBrackets t
    obtain ⟨used, hused, -⟩ := @hlocal ts _ _ rfl
    dsimp only
    rw [readBrackets_append hrest.foreign]
    exact .takes ⟨used, hused.symm⟩ (Or.inl rfl)
  exact (hatom.bind hbrackets).succ fun _ _ => rfl

/-! ## Atoms -/

theorem probes_readAtom (hrest : Misfit rest) (hsuffixed : Probes rest 2 readPostfix depth)
    (hinner : Probes rest 5 readParenthesized depth)
    (hnamed : ∀ base, Probes rest 1 (fun depth ts => readNamed depth base ts) depth) :
    Probes rest 1 readAtom (depth + 1) := by
  have hnullable := hsuffixed.bind fun inner => probes_ok (TypeExpr.nullable inner)
  suffices hbody : Probes rest 0 (fun depth ts => readAtom (depth + 1) ts) depth
      from hbody.succ fun _ _ => rfl
  intro ts depth' hdepth hle
  cases ts with
  | nil =>
    obtain ⟨mark, more, c, rfl, hmark⟩ := hrest.exists_other
    simp only [readAtom, peek, List.nil_append, List.head?_cons, Option.map_some, hmark]
    exact .ends
  | cons t ts =>
    have hpeek : ∀ us, peek (t :: us) = some t.token := fun _ => rfl
    rw [List.length_cons] at hdepth
    simp only [List.cons_append, readAtom, hpeek, List.tail_cons]
    have hsuffix := List.suffix_cons t ts
    split
    case h_1 => exact (hnullable (by omega) hle).mono hsuffix
    case h_2 => exact (hinner (by omega) hle).mono hsuffix
    case h_7 text _ => exact (hnamed text (by omega) hle).mono hsuffix
    case h_8 => exact .refuses (List.suffix_refl _)
    all_goals exact (probed_ok _).mono hsuffix

theorem probes_readNamed (hrest : Misfit rest) (hparams : Probes rest 5 readParams depth)
    (hfields : Probes rest 6 readFields depth)
    (hsignature : Probes rest 5 readCallableParams depth)
    (hsuffixed : Probes rest 2 readPostfix depth) (base : String) :
    Probes rest 1 (fun depth ts => readNamed depth base ts) (depth + 1) := by
  have hgeneric :=
    (hparams.mono (0 + 8) (by omega)).bind fun params => probes_ok (TypeExpr.generic base params)
  have hshape :=
    (hfields.mono (0 + 8) (by omega)).bind fun fields => probes_ok (TypeExpr.shape base fields)
  have hresult := fun params => (hsuffixed.mono (0 + 8 + 8) (by omega)).bind fun result =>
    probes_ok (TypeExpr.callable base params (some result))
  have hcallable := (hsignature.mono (0 + 8) (by omega)).bind fun params =>
    (hresult params).ite_at (probes_ok (TypeExpr.callable base params none)) hrest ':'
  have hparen :=
    hcallable.ite_at_and (probes_ok (TypeExpr.name base)) hrest '('
      (callableBases.contains (lower base))
  have hbrace := hshape.ite_at_and hparen hrest '\x7b' (shapeBases.contains (lower base))
  exact (hgeneric.ite_at hbrace hrest '<').succ fun _ _ => rfl

/-- A conditional type behind its `is`. -/
theorem probes_readConditional (hrest : Misfit rest) (hunion : Probes rest 4 readUnion depth)
    (is : Lexeme) :
    Probes rest 5 (fun depth ts => readConditional depth (is :: ts)) (depth + 1) := by
  have hno := fun yes => (hunion.bind fun no =>
    (probes_ok (TypeExpr.conditional yes no)).expect hrest ')').expect hrest ':'
  have hyes := (hunion.bind fun yes => hno yes).expect hrest '?'
  have hnot := skips_first rfl (hrest.atWord_append "not")
  exact ((hunion.bind fun _ => hyes).skip hnot).succ fun _ _ => rfl

theorem startsConditional_append (hrest : Misfit rest) (ts : List Lexeme) :
    startsConditional (ts ++ rest) = startsConditional ts := by
  cases ts with
  | nil =>
    obtain ⟨mark, more, c, rfl, hmark⟩ := hrest.exists_other
    simp [startsConditional, peek, hmark]
  | cons t ts =>
    unfold startsConditional
    rw [List.cons_append, List.tail_cons, List.tail_cons, hrest.atWord_append]
    rfl

theorem probes_readParenthesized (hrest : Misfit rest) (hunion : Probes rest 4 readUnion depth)
    (hconditional : ∀ is, Probes rest 5 (fun depth ts => readConditional depth (is :: ts)) depth) :
    Probes rest 5 readParenthesized (depth + 1) := by
  have hinner := hunion.bind fun inner => probes_ite_first readConditional
    (fun is => (hconditional is).mono (4 + 8) (by omega)) ((probes_ok inner).expect hrest ')') rfl
    (hrest.atWord_append "is")
  refine Probes.succ (fun ts depth' hdepth hle => ?_) readParenthesized_succ
  rw [startsConditional_append hrest]
  cases hstarts : startsConditional ts with
  | true =>
    obtain ⟨t, is, more, rfl, -, -⟩ := exists_of_startsConditional hstarts
    simp only [List.length_cons] at hdepth
    exact (hconditional is (by omega) hle).mono
      ((List.suffix_cons is more).trans (List.suffix_cons t _))
  | false => exact hinner hdepth hle

/-! ## Lists in brackets -/

theorem Probes.list {item : Reader α} {more : Reader (List α)}
    (hitem : Probes rest extra item depth) (hmore : Probes rest (extra + 8) more depth)
    (hrest : Misfit rest) (closing : Char) :
    Probes rest extra (itemAndRest closing item more) depth := by
  have hnext := fun x => hmore.bind fun xs => probes_ok (x :: xs)
  exact hitem.bind fun x => (hnext x).ite_at ((probes_ok [x]).expect hrest closing) hrest ','

theorem skips_dropVariance (hrest : Misfit rest) : Skips rest dropVariance where
  suffix ts := by
    cases ts with
    | nil => exact List.suffix_refl []
    | cons t ts =>
      by_cases hskips : SkipsVariance t ts
      · rw [hskips.dropVariance_eq]
        exact List.suffix_cons t ts
      · rw [dropVariance_of_not_skips hskips]
  append := dropVariance_append hrest.foreign

theorem skips_dropVariable (hrest : Misfit rest) : Skips rest dropVariable where
  suffix ts := by
    unfold dropVariable
    split
    · exact List.tail_suffix ts
    · exact List.suffix_refl ts
  append ts := by
    cases ts with
    | nil =>
      obtain ⟨mark, more, c, rfl, hmark⟩ := hrest.exists_other
      simp [dropVariable, peek, hmark]
    | cons t ts =>
      have hpeek : ∀ us, peek (t :: us) = some t.token := fun _ => rfl
      unfold dropVariable
      rw [List.cons_append, hpeek, hpeek]
      split <;> rfl

theorem Misfit.ellipsis_append (hrest : Misfit rest) (ts : List Lexeme) :
    (peek (ts ++ rest) == some .ellipsis) = (peek ts == some .ellipsis) :=
  hrest.peek_append (f := (· == some .ellipsis)) (fun _ => rfl) ts

theorem skips_dropParameterMarks (hrest : Misfit rest) : Skips rest dropParameterMarks := by
  have hpunct := fun c => (skips_first rfl (hrest.at?_append c) : Skips rest (dropPunct c))
  have hellipsis : Skips rest fun ts => if peek ts == some .ellipsis then ts.tail else ts :=
    skips_first rfl hrest.ellipsis_append
  exact (((hpunct '&').comp hellipsis).comp (skips_dropVariable hrest)).comp (hpunct '=')

theorem probes_readParams (hrest : Misfit rest) (hunion : Probes rest 4 readUnion depth)
    (hmore : Probes rest 5 readParams depth) : Probes rest 5 readParams (depth + 1) := by
  have hlist :=
    (hunion.skip (skips_dropVariance hrest)).list (hmore.mono (4 + 8) (by omega)) hrest '>'
  exact ((probes_ok []).ite_at hlist hrest '>').succ fun _ _ => rfl

theorem probes_readCallableParams (hrest : Misfit rest) (hunion : Probes rest 4 readUnion depth)
    (hmore : Probes rest 5 readCallableParams depth) :
    Probes rest 5 readCallableParams (depth + 1) := by
  have hitem := hunion.bind fun t => (probes_ok t).skip (skips_dropParameterMarks hrest)
  have hlist := hitem.list (hmore.mono (4 + 8) (by omega)) hrest ')'
  refine ((probes_ok []).ite_at hlist hrest ')').succ fun depth ts => ?_
  rw [readCallableParams, itemAndRest]
  split
  · rfl
  · cases readUnion depth ts <;> rfl

theorem fieldKey?_append (hrest : Misfit rest) (ts : List Lexeme) :
    fieldKey? (ts ++ rest) = fieldKey? ts := by
  cases ts with
  | nil =>
    obtain ⟨mark, more, c, rfl, hmark⟩ := hrest.exists_other
    rw [List.nil_append, fieldKey?_cons, hmark]
    exact ite_self none
  | cons t ts =>
    rw [List.cons_append, fieldKey?_cons, fieldKey?_cons, atColon_append hrest.foreign]

theorem probes_readField (hrest : Misfit rest) (hunion : Probes rest 4 readUnion depth) :
    Probes rest 5 readField (depth + 1) := by
  have hvalue :=
    fun key optional => hunion.bind fun value => probes_ok (ShapeField.mk key optional value)
  suffices hbody : Probes rest 4 (fun depth ts => readField (depth + 1) ts) depth
      from hbody.succ fun _ _ => rfl
  intro ts depth' hdepth hle
  dsimp only
  cases hkey : fieldKey? ts with
  | none =>
    rw [readField, readField, fieldKey?_append hrest, hkey]
    exact hvalue none false hdepth hle
  | some key =>
    obtain ⟨label, more, optional, rfl, -, hfield⟩ := exists_of_fieldKey? hkey
    rw [List.append_assoc, hfield, hfield]
    rw [List.length_append] at hdepth
    exact (hvalue (some key) optional (by omega) hle).mono (List.suffix_append label more)

theorem probes_readFields (hrest : Misfit rest) (hfield : Probes rest 5 readField depth)
    (hmore : Probes rest 6 readFields depth) : Probes rest 6 readFields (depth + 1) := by
  have hlist := hfield.list (hmore.mono (5 + 8) (by omega)) hrest '\x7d'
  have hfields := probes_ite_skip (fun ts => peek ts == some .ellipsis)
    ((probes_ok ([] : List ShapeField)).expect hrest '\x7d') hlist rfl hrest.ellipsis_append
  exact ((probes_ok []).ite_at hfields hrest '\x7d').succ fun _ _ => rfl

/-! ## All readers -/

/-- All readers of types at a depth. -/
structure ProbesReaders (rest : List Lexeme) (depth : Nat) : Prop where
  union : Probes rest 4 readUnion depth
  alternatives : Probes rest 1 readAlternatives depth
  intersection : Probes rest 3 readIntersection depth
  conjuncts : Probes rest 1 readConjuncts depth
  suffixed : Probes rest 2 readPostfix depth
  atom : Probes rest 1 readAtom depth
  named : ∀ base, Probes rest 1 (fun depth ts => readNamed depth base ts) depth
  parenthesized : Probes rest 5 readParenthesized depth
  conditional : ∀ is, Probes rest 5 (fun depth ts => readConditional depth (is :: ts)) depth
  params : Probes rest 5 readParams depth
  fields : Probes rest 6 readFields depth
  field : Probes rest 5 readField depth
  callableParams : Probes rest 5 readCallableParams depth

theorem probesReaders (hrest : Misfit rest) (depth : Nat) : ProbesReaders rest depth := by
  induction depth with
  | zero => constructor <;> intros <;> exact probes_zero (by omega)
  | succ depth ih =>
    exact {
      union := probes_readUnion hrest ih.intersection ih.alternatives
      alternatives := probes_readAlternatives hrest ih.intersection ih.alternatives
      intersection := probes_readIntersection ih.suffixed ih.conjuncts
      conjuncts := probes_readConjuncts hrest ih.suffixed ih.conjuncts
      suffixed := probes_readPostfix hrest ih.atom
      atom := probes_readAtom hrest ih.suffixed ih.parenthesized ih.named
      named := probes_readNamed hrest ih.params ih.fields ih.callableParams ih.suffixed
      parenthesized := probes_readParenthesized hrest ih.union ih.conditional
      conditional := probes_readConditional hrest ih.union
      params := probes_readParams hrest ih.union ih.params
      fields := probes_readFields hrest ih.field ih.fields
      field := probes_readField hrest ih.union
      callableParams := probes_readCallableParams hrest ih.union ih.callableParams }

/-! ## Why reading fails -/

theorem Probed.of_error {e : TypeError} (h : Probed rest ts (.error e) x') :
    (∃ t more, t :: more <:+ ts ∧ e = unexpected (t :: more)) ∨
      (e = .unexpectedEnd ∧ x' = .error (unexpected rest)) := by
  cases h with
  | refuses hleft => exact Or.inl ⟨_, _, hleft, rfl⟩
  | ends => exact Or.inr ⟨rfl, rfl⟩

/-- All these tokens are taken and more are wanted: whatever is put behind them, if its first token
is no part of a type, reading fails at that one. -/
def NeedsMore (ts : List Lexeme) : Prop :=
  ∀ (mark : Lexeme) (more : List Lexeme), ¬ mark.token.Proper →
    readUnion (readingDepth (ts ++ mark :: more)) (ts ++ mark :: more) =
      .error (.unexpected mark.token.text mark.start)

/-- Reading fails at a token, or because there are too few. -/
theorem error_of_readUnion {e : TypeError} (h : readUnion (readingDepth ts) ts = .error e) :
    (∃ used t more, ts = used ++ t :: more ∧ e = .unexpected t.token.text t.start) ∨
      (e = .unexpectedEnd ∧ NeedsMore ts) := by
  have hprobed : ∀ {rest : List Lexeme}, Misfit rest →
      Probed rest ts (.error e) (readUnion (readingDepth (ts ++ rest)) (ts ++ rest)) := by
    intro rest hrest
    have hdepth : readingDepth ts ≤ readingDepth (ts ++ rest) := by
      rw [readingDepth, readingDepth, List.length_append]
      omega
    rw [← h]
    exact (probesReaders hrest _).union (by rw [readingDepth]; omega) hdepth
  -- any such token shows at which of the tokens reading failed, and if it was at none, every one
  -- of them is reached
  have hother : Misfit [⟨.other '#', 0, 0⟩] := ⟨_, _, rfl, fun h => h '#' rfl⟩
  rcases (hprobed hother).of_error with ⟨t, more, ⟨used, hused⟩, he⟩ | ⟨rfl, -⟩
  · exact Or.inl ⟨used, t, more, hused.symm, he⟩
  · refine Or.inr ⟨rfl, fun mark more hmark => ?_⟩
    rcases (hprobed ⟨mark, more, rfl, hmark⟩).of_error with ⟨t, more, -, he⟩ | ⟨-, hends⟩
    · cases he
    · exact hends

/-- Behind a type at the start of a text that is no type something is left, apart from white
space. -/
theorem trailing_of_read {input : List Char} {t : TypeExpr} {n : Nat} {e : TypeError}
    (hstart : readPrefix input = .ok (t, n)) (h : read input = .error e) :
    trim (dropBytes n input) ≠ [] ∧ e = .trailing (.ofList (trim (dropBytes n input))) := by
  unfold read at h
  simp only [hstart, bind, Except.bind] at h
  cases htrim : trim (dropBytes n input) with
  | nil =>
    simp only [htrim] at h
    cases h
  | cons c cs =>
    simp only [htrim] at h
    cases h
    exact ⟨List.cons_ne_nil c cs, rfl⟩

/-! ## Texts and their tokens -/

/-- The next token stands behind white space, where its offset says. -/
theorem exists_of_tokensFrom_cons {pos : Nat} {input : List Char} {t : Lexeme} {more : List Lexeme}
    (h : tokensFrom pos input = t :: more) :
    ∃ blank back, input = blank ++ t.token.text.toList ++ back ∧ (∀ c ∈ blank, isBlank c = true) ∧
      t.start = pos + bytes blank ∧ t.token.text.toList ≠ [] := by
  induction input generalizing pos with
  | nil => cases h
  | cons c cs ih =>
    by_cases hc : isBlank c = true
    · rw [tokensFrom_blank hc] at h
      obtain ⟨blank, back, rfl, hblank, hstart, hne⟩ := ih h
      refine ⟨c :: blank, back, rfl, List.forall_mem_cons.mpr ⟨hc, hblank⟩, ?_, hne⟩
      rw [hstart, bytes_cons, Nat.add_assoc]
    · rw [Bool.not_eq_true] at hc
      rw [tokensFrom_cons hc, List.cons.injEq] at h
      obtain ⟨rfl, -⟩ := h
      obtain ⟨back, hback⟩ := isPrefix_text_tokenAt c cs
      exact ⟨[], back, hback.symm, by simp, rfl, List.ne_nil_of_length_pos (text_tokenAt_pos c cs)⟩

/-- White space behind the tokens of a text adds none. -/
theorem SplitsAt.lexemes_append {front back blank : List Char} {used : List Lexeme}
    (h : SplitsAt 0 front back used) (hpre : blank <+: back)
    (hblank : ∀ c ∈ blank, isBlank c = true) : lexemes (front ++ blank) = used := by
  have htokens := h.tokens blank hpre
  rw [tokensFrom_of_all_blank hblank, List.append_nil] at htokens
  exact htokens

/-! ## Errors point at the text -/

/--
What an error says of the text. A token that fits nowhere stands at the offset, which is inside the
text, behind whole tokens and white space. At the end of the text all tokens were taken and only
white space is behind them. What is left over ends the text but for white space, and what stands
before it is a type.
-/
def Points (text : String) : TypeError → Prop
  | .unexpected found offset => found ≠ "" ∧ offset < byteLength text ∧
      ∃ front back : String, text = front ++ found ++ back ∧ byteLength front = offset ∧
        ∃ tok after, tok.text = found ∧
          tokensOf text.toList = tokensOf front.toList ++ tok :: after
  | .unexpectedEnd => NeedsMore (lexemes text.toList) ∧
      trim (dropBytes (consumed (lexemes text.toList) []) text.toList) = []
  | .trailing rest => rest ≠ "" ∧
      ∃ front tail : String, text = front ++ rest ++ tail ∧ (∀ c ∈ tail.toList, isBlank c = true) ∧
        ∃ t, parse front = .ok t

theorem points_unexpected {text : String} {used more : List Lexeme} {t : Lexeme}
    (h : lexemes text.toList = used ++ t :: more) :
    Points text (.unexpected t.token.text t.start) := by
  obtain ⟨front, back, hinput, hsplit⟩ := exists_splitsAt 0 h
  have hback := hsplit.tokens back (List.prefix_refl _)
  rw [← hinput] at hback
  have hnext : tokensFrom (0 + bytes front) back = t :: more :=
    List.append_cancel_left (hback.symm.trans h)
  obtain ⟨blank, rest, rfl, hblank, hstart, hne⟩ := exists_of_tokensFrom_cons hnext
  have hfront : lexemes (front ++ blank) = used :=
    hsplit.lexemes_append ⟨_, (List.append_assoc _ _ _).symm⟩ hblank
  have htext : text.toList = front ++ blank ++ t.token.text.toList ++ rest := by
    rw [hinput]
    simp
  have hoffset : bytes (front ++ blank) = t.start := by
    rw [hstart, bytes_append, Nat.zero_add]
  refine ⟨fun hempty => hne (by rw [hempty]; rfl), ?_, .ofList (front ++ blank), .ofList rest,
    ?_, ?_, t.token, more.map Lexeme.token, rfl, ?_⟩
  · rw [byteLength, htext, bytes_append, bytes_append, hoffset]
    have := bytes_pos hne
    omega
  · apply String.toList_injective
    rw [htext]
    simp
  · rw [byteLength, String.toList_ofList, hoffset]
  · rw [String.toList_ofList, tokensOf, tokensOf, hfront, h, List.map_append, List.map_cons]

theorem points_trailing {text : String} {t : TypeExpr} {n : Nat}
    (h : parsePrefix text = .ok (t, n)) (hne : trim (dropBytes n text.toList) ≠ []) :
    Points text (.trailing (.ofList (trim (dropBytes n text.toList)))) := by
  rw [parsePrefix_eq_readPrefix] at h
  obtain ⟨front, back, used, left, htext, rfl, -, hsplit, rfl, htakes⟩ := exists_of_readPrefix h
  rw [htext, dropBytes_append] at hne ⊢
  obtain ⟨before, after, hback, hbefore, hafter⟩ := exists_of_trim back
  have hused : lexemes (front ++ before) = used :=
    hsplit.lexemes_append ⟨trim back ++ after, by rw [← List.append_assoc, ← hback]⟩ hbefore
  have hall : text.toList = front ++ before ++ trim back ++ after := by
    calc text.toList = front ++ back := htext
      _ = front ++ (before ++ trim back ++ after) := congrArg (front ++ ·) hback
      _ = front ++ before ++ trim back ++ after := by simp only [List.append_assoc]
  refine ⟨fun hempty => hne ?_, .ofList (front ++ before), .ofList after, ?_, ?_, t, ?_⟩
  · exact String.toList_ofList.symm.trans (congrArg String.toList hempty)
  · apply String.toList_injective
    rw [hall]
    simp
  · rwa [String.toList_ofList]
  · rw [parse_eq_read, String.toList_ofList]
    apply read_of_takes
    rw [hused]
    exact ⟨htakes.proper, fun hcut hdepth => htakes.again (by cases hcut; exact .nil _) hdepth⟩

/-- Every error of reading a text as a type points at the text. -/
theorem parse_error_points {text : String} {e : TypeError} (h : parse text = .error e) :
    Points text e := by
  rw [parse_eq_read] at h
  cases hread : readUnion (readingDepth (lexemes text.toList)) (lexemes text.toList) with
  | error e' =>
    obtain rfl : e' = e := Except.error.inj ((read_of_error hread).symm.trans h)
    rcases error_of_readUnion hread with ⟨used, t, more, htokens, rfl⟩ | ⟨rfl, hmore⟩
    · exact points_unexpected htokens
    · exact ⟨hmore, trim_consumed _⟩
  | ok r =>
    have hstart : readPrefix text.toList = .ok (r.1, consumed (lexemes text.toList) r.2) := by
      unfold readPrefix
      simp only [hread, bind, Except.bind, pure, Except.pure]
    obtain ⟨hne, rfl⟩ := trailing_of_read hstart h
    exact points_trailing ((parsePrefix_eq_readPrefix text).trans hstart) hne

/-- Of `'é' |>` the token at offset 6 fits nowhere, `array<int ` ends too early, and `A &$x ` has a
parameter left over. -/
theorem parse_error_points_texts :
    (parse "'é' |>" = .error (.unexpected ">" 6) ∧ Points "'é' |>" (.unexpected ">" 6)) ∧
      (parse "array<int " = .error .unexpectedEnd ∧ Points "array<int " .unexpectedEnd) ∧
      parse "A &$x " = .error (.trailing "&$x") ∧ Points "A &$x " (.trailing "&$x") := by
  have hunexpected : parse "'é' |>" = .error (.unexpected ">" 6) := by decide +kernel
  have hend : parse "array<int " = .error .unexpectedEnd := by decide +kernel
  have htrailing : parse "A &$x " = .error (.trailing "&$x") := by decide +kernel
  exact ⟨⟨hunexpected, parse_error_points hunexpected⟩, ⟨hend, parse_error_points hend⟩, htrailing,
    parse_error_points htrailing⟩

end ClassDocs.TypeExpr

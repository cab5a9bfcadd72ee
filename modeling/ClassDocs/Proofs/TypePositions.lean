import ClassDocs.Proofs.TypeLocality

/-!
# Offsets and tokens

A type is read off a text by a lexer that keeps nothing but a byte offset, and copies of it look
ahead. The same readers over the list of all tokens keep the tokens that are left. Both come to the
same result, or fail with the same error, on every text (`prefixOf_eq_readPrefix`,
`wholeOf_eq_read`).

A lexer has the tokens from its offset on before it, and `next?` takes off the first of them
(`Lexer.next?_cases`). So a reader at an offset `Stands` before a list of tokens, and what it sees
ahead is what stands at the front of the list. The two readers then go through equal steps
(`Tracks`), by induction on the depth of calls over all readers at once. One reader has more calls
left than the other, so the depth of the one over tokens has to be enough, with eight calls for
each token.
-/

namespace ClassDocs.TypeExpr

open ClassDocs.Text

/-! ## The tokens from an offset on -/

/-- The tokens of an input that starts at byte offset `pos`. -/
def tokensFrom (pos : Nat) (input : List Char) : List Lexeme := scan input.length pos input

theorem length_drop_tokenAt (c : Char) (cs : List Char) :
    ((c :: cs).drop (tokenAt c cs).text.toList.length).length ≤ cs.length := by
  have hpos := text_tokenAt_pos c cs
  rw [List.length_drop, List.length_cons]
  omega

theorem scan_eq_scan {bound steps pos : Nat} {input : List Char} (hle : input.length ≤ bound)
    (h : bound ≤ steps) :
    scan steps pos input = scan bound pos input := by
  induction bound generalizing steps pos input with
  | zero =>
    obtain rfl := List.length_eq_zero_iff.mp (Nat.le_zero.mp hle)
    cases steps <;> rfl
  | succ bound ih =>
    obtain ⟨steps, rfl⟩ : ∃ n, steps = n + 1 := ⟨steps - 1, by omega⟩
    rw [Nat.add_le_add_iff_right] at h
    cases input with
    | nil => rfl
    | cons c cs =>
      rw [List.length_cons, Nat.add_le_add_iff_right] at hle
      simp only [scan]
      rw [ih hle h, ih (Nat.le_trans (length_drop_tokenAt c cs) hle) h]

theorem tokensFrom_blank {c : Char} (h : isBlank c = true) (pos : Nat) (cs : List Char) :
    tokensFrom pos (c :: cs) = tokensFrom (pos + c.utf8Size) cs := by
  rw [tokensFrom, List.length_cons, scan, if_pos h]
  rfl

theorem tokensFrom_cons {c : Char} (h : isBlank c = false) (pos : Nat) (cs : List Char) :
    tokensFrom pos (c :: cs) =
      let text := (tokenAt c cs).text.toList
      ⟨tokenAt c cs, pos, pos + bytes text⟩ :: tokensFrom (pos + bytes text)
          ((c :: cs).drop text.length) := by
  rw [tokensFrom, List.length_cons, scan, if_neg (by simp [h])]
  dsimp only
  rw [scan_eq_scan (Nat.le_refl _) (length_drop_tokenAt c cs)]
  rfl


theorem tokensFrom_dropWhile (pos : Nat) (cs : List Char) : tokensFrom pos cs =
    tokensFrom (pos + bytes (cs.takeWhile isBlank)) (cs.dropWhile isBlank) := by
  induction cs generalizing pos with
  | nil => rfl
  | cons c cs ih =>
    by_cases hc : isBlank c = true
    · rw [tokensFrom_blank hc, List.takeWhile_cons_of_pos hc, List.dropWhile_cons_of_pos hc,
        bytes_cons, ← Nat.add_assoc]
      exact ih _
    · rw [List.takeWhile_cons_of_neg hc, List.dropWhile_cons_of_neg hc]
      rfl

theorem length_scan_le (steps pos : Nat) (input : List Char) :
    (scan steps pos input).length ≤ input.length := by
  induction steps generalizing pos input with
  | zero => exact Nat.zero_le _
  | succ steps ih =>
    cases input with
    | nil => exact Nat.le_refl _
    | cons c cs =>
      rw [scan]
      split
      · exact Nat.le_succ_of_le (ih _ cs)
      · exact Nat.succ_le_succ (Nat.le_trans (ih _ _) (length_drop_tokenAt c cs))

namespace Lexer

/-- The tokens that a lexer has before it. -/
def tokens (lexer : Lexer) : List Lexeme := tokensFrom lexer.pos lexer.rest

theorem rest_advance {lexer : Lexer} {taken rest : List Char} (h : lexer.rest = taken ++ rest)
    (hpre : taken <+: lexer.rest) : (lexer.advance taken hpre).rest = rest :=
  lexer.isCut.dropBytes_add h

theorem rest_skipBlanks (lexer : Lexer) : lexer.skipBlanks.rest = lexer.rest.dropWhile isBlank :=
  rest_advance List.takeWhile_append_dropWhile.symm _

theorem tokens_skipBlanks (lexer : Lexer) : lexer.skipBlanks.tokens = lexer.tokens := by
  rw [tokens, tokens, rest_skipBlanks, tokensFrom_dropWhile lexer.pos]
  rfl

/-- **Taking a token** takes the first of those before the lexer, and the others are before it
then. -/
theorem next?_cases (lexer : Lexer) : (lexer.next? = none ∧ lexer.tokens = []) ∨
    ∃ t after, lexer.next? = some (t, after) ∧ lexer.tokens = t :: after.tokens := by
  rw [← tokens_skipBlanks, tokens]
  unfold next?
  dsimp only
  split
  · rename_i hrest
    rw [hrest]
    exact .inl ⟨rfl, rfl⟩
  · rename_i c cs hrest
    refine .inr ⟨_, _, rfl, ?_⟩
    have hblank : isBlank c = false := by
      rw [rest_skipBlanks] at hrest
      have hhead := List.head?_dropWhile_not isBlank lexer.rest
      rw [hrest] at hhead
      simpa using hhead
    obtain ⟨rest, hsplit⟩ := isPrefix_text_tokenAt c cs
    have htokens : tokensFrom lexer.skipBlanks.pos lexer.skipBlanks.rest =
        let stop := lexer.skipBlanks.pos + bytes (tokenAt c cs).text.toList
        ⟨tokenAt c cs, lexer.skipBlanks.pos, stop⟩ :: tokensFrom stop rest := by
      rw [hrest, tokensFrom_cons hblank]
      dsimp only
      rw [← hsplit, List.drop_left]
    rw [htokens, tokens, rest_advance (hrest.trans hsplit.symm)]
    rfl

/-- The tokens that come one after another, up to a number of them. -/
def taken : Nat → Lexer → List Lexeme
  | 0, _ => []
  | steps + 1, lexer =>
    match lexer.next? with
    | none => []
    | some (t, after) => t :: taken steps after

theorem taken_eq_tokens {steps : Nat} {lexer : Lexer} (h : lexer.tokens.length ≤ steps) :
    lexer.taken steps = lexer.tokens := by
  induction steps generalizing lexer with
  | zero => exact (List.length_eq_zero_iff.mp (Nat.le_zero.mp h)).symm
  | succ steps ih =>
    rw [taken]
    rcases lexer.next?_cases with ⟨hnext, htokens⟩ | ⟨t, after, hnext, htokens⟩
    · rw [hnext, htokens]
    · rw [htokens] at h ⊢
      rw [hnext]
      exact congrArg _ (ih (Nat.le_of_succ_le_succ h))

end Lexer

/-! ## Looking ahead -/

variable {all ts : List Lexeme} {p : Parser}

/-- A reader in a text with the tokens `all` that has the tokens `ts` before it. -/
structure Stands (all : List Lexeme) (p : Parser) (ts : List Lexeme) : Prop where
  tokens : p.lexer.tokens = ts
  suffix : ts <:+ all
  consumed : p.consumed = consumed all ts

theorem consumed_of_suffix {t : Lexeme} (h : t :: ts <:+ all) : consumed all ts = t.stop := by
  obtain ⟨used, rfl⟩ := h
  have hconsumed := @consumed_append (used ++ [t]) t.stop (by simp) (by simp) ts
  rwa [List.append_assoc, List.singleton_append] at hconsumed

/-- A reader that stands before a token stands behind it when the token is taken. -/
theorem Stands.next (h : Stands all p ts) : (ts = [] ∧ p.lexer.next? = none) ∨
    ∃ t rest after, ts = t :: rest ∧ p.lexer.next? = some (t, after) ∧
      Stands all ⟨after, t.stop⟩ rest := by
  obtain ⟨htokens, hsuffix, -⟩ := h
  rcases p.lexer.next?_cases with ⟨hnext, hnil⟩ | ⟨t, after, hnext, hcons⟩
  · exact .inl ⟨htokens.symm.trans hnil, hnext⟩
  · obtain rfl := hcons.symm.trans htokens
    have hrest : after.tokens <:+ all := (List.suffix_cons t _).trans hsuffix
    exact .inr ⟨t, after.tokens, after, rfl, hnext, rfl, hrest, (consumed_of_suffix hsuffix).symm⟩

theorem Stands.peek (h : Stands all p ts) : p.peek = TypeExpr.peek ts := by
  rcases h.next with ⟨rfl, hnext⟩ | ⟨t, rest, after, rfl, hnext, -⟩
  all_goals
    rw [Parser.peek, hnext]
    rfl

theorem Stands.peekSecond (h : Stands all p ts) : p.peekSecond = TypeExpr.peekSecond ts := by
  unfold Parser.peekSecond
  rcases h.next with ⟨rfl, hnext⟩ | ⟨t, rest, after, rfl, hnext, hafter⟩
  · rw [hnext]
    rfl
  · have hpeek : after.next?.map (·.1.token) = TypeExpr.peek rest := hafter.peek
    rw [hnext, TypeExpr.peekSecond, List.tail_cons, ← hpeek]
    simp only [Option.bind_eq_bind, Option.bind_some]
    cases after.next? <;> rfl

theorem Stands.unexpected (h : Stands all p ts) : p.unexpected = TypeExpr.unexpected ts := by
  unfold Parser.unexpected
  rcases h.next with ⟨rfl, hnext⟩ | ⟨t, rest, after, rfl, hnext, -⟩
  all_goals
    rw [hnext]
    rfl

theorem Stands.at? (h : Stands all p ts) (c : Char) :
    (p.peek == some (.punct c)) = TypeExpr.at? c ts := by
  rw [h.peek, TypeExpr.at?]

theorem Stands.at?_and (h : Stands all p ts) (c : Char) (b : Bool) :
    (p.peek == some (.punct c) && b) = (TypeExpr.at? c ts && b) := by
  rw [h.at?]

theorem Stands.atBrackets (h : Stands all p ts) :
    p.atBrackets = (TypeExpr.at? '[' ts && TypeExpr.at? ']' ts.tail) := by
  rw [Parser.atBrackets, h.at?, h.peekSecond]
  rfl

theorem Stands.atEllipsis (h : Stands all p ts) :
    (p.peek == some .ellipsis) = (TypeExpr.peek ts == some .ellipsis) := by
  rw [h.peek]

theorem Stands.atWord (h : Stands all p ts) (word : String) :
    p.atWord word = TypeExpr.atWord word ts := by
  rewrite [Parser.atWord, TypeExpr.atWord, h.peek]
  rfl

theorem Stands.atIntersection (h : Stands all p ts) :
    p.atIntersection = TypeExpr.atIntersection ts := by
  rewrite [Parser.atIntersection, TypeExpr.atIntersection, h.at?, h.peekSecond]
  rfl

theorem Stands.atSubject (h : Stands all p ts) : p.atSubject = startsConditional ts := by
  unfold Parser.atSubject startsConditional TypeExpr.atWord
  rw [h.peek, h.peekSecond, TypeExpr.peekSecond]
  rcases TypeExpr.peek ts with _ | tok
  · rfl
  · rcases TypeExpr.peek ts.tail with _ | tok'
    · cases tok <;> rfl
    · cases tok <;> cases tok' <;> try rfl
      dsimp only
      split <;> simp_all

/-- The probe sees the tokens behind the next one. -/
theorem Stands.probe (h : Stands all p ts) :
    (p.probe == some true) = (TypeExpr.at? ':' ts.tail || TypeExpr.at? ':' ts.tail.tail) := by
  unfold Parser.probe
  rcases h.next with ⟨rfl, hnext⟩ | ⟨t, rest, after, rfl, hnext, hafter⟩
  · rw [hnext]
    rfl
  rcases hafter.next with ⟨rfl, hnext'⟩ | ⟨t', rest', after', rfl, hnext', hafter'⟩
  · simp only [hnext, hnext', Option.bind_eq_bind, Option.bind_some, Option.bind_none]
    rfl
  have hcolon : (after'.next?.map (·.1.token) == some (.punct ':')) = TypeExpr.at? ':' rest' :=
    hafter'.at? ':'
  simp only [hnext, hnext', Option.bind_eq_bind, Option.bind_some, List.tail_cons, ← hcolon]
  by_cases hmark : t'.token = .punct ':'
  · simp [hmark, at?_cons.mpr hmark]
  · rw [at?_cons_of_ne _ hmark, if_neg (by simpa using hmark)]
    cases after'.next? <;> simp

theorem Stands.atKey (h : Stands all p ts) : p.atKey = (fieldKey? ts).isSome := by
  rw [Parser.atKey, h.probe, h.peek, h.peekSecond]
  cases ts with
  | nil => rfl
  | cons t ts =>
    have hkey : (keyText? t.token).isSome = t.token.isKey := by cases t.token <;> rfl
    rw [fieldKey?_cons, atColon]
    change (t.token.isKey && (TypeExpr.at? ':' ts || TypeExpr.at? '?' ts) &&
      (TypeExpr.at? ':' ts || TypeExpr.at? ':' ts.tail)) = _
    rw [← hkey]
    cases TypeExpr.at? ':' ts <;> cases TypeExpr.at? '?' ts <;>
      cases TypeExpr.at? ':' ts.tail <;> simp

theorem Stands.atVariance_iff {t : Lexeme} (h : Stands all p (t :: ts)) :
    p.atVariance = true ↔ SkipsVariance t ts := by
  have hsecond : ∀ c, (p.peekSecond == some (.punct c)) = TypeExpr.at? c ts := fun c => by
    rw [h.peekSecond]
    rfl
  unfold Parser.atVariance SkipsVariance
  have hnext : TypeExpr.peek (t :: ts) = some t.token := rfl
  rw [h.peek, hsecond, hsecond, hnext]
  cases t.token <;> simp

theorem Stands.dropVariance_eq (h : Stands all p ts) :
    dropVariance ts = if p.atVariance then ts.tail else ts := by
  cases ts with
  | nil => exact (ite_self _).symm
  | cons t ts =>
    split
    · rename_i hskips
      exact (h.atVariance_iff.mp hskips).dropVariance_eq
    · rename_i hskips
      exact dropVariance_of_not_skips (mt h.atVariance_iff.mpr hskips)

/-! ## Equal steps -/

variable {α β : Type}

theorem bind_apply (first : Parsing α) (second : α → Parsing β) (p : Parser) :
    (first >>= second) p = first p >>= fun r => second r.1 r.2 := rfl

theorem get_bind_apply (next : Parser → Parsing α) (p : Parser) :
    ((get : Parsing Parser) >>= next) p = next p p := rfl

/-- The same outcome: one result with the same tokens left of `ts`, or one error. -/
inductive Matches (all ts : List Lexeme) :
    Except TypeError (α × Parser) → Except TypeError (α × List Lexeme) → Prop where
  | ok {a : α} {p : Parser} {left : List Lexeme} : left <:+ ts → Stands all p left →
      Matches all ts (.ok (a, p)) (.ok (a, left))
  | error (e : TypeError) : Matches all ts (.error e) (.error e)

theorem Matches.mono {us : List Lexeme} {x : Except TypeError (α × Parser)}
    {y : Except TypeError (α × List Lexeme)} (h : Matches all us x y) (hsuffix : us <:+ ts) :
    Matches all ts x y := by
  cases h with
  | ok hleft hstands => exact .ok (hleft.trans hsuffix) hstands
  | error e => exact .error e

theorem matches_pure (a : α) (h : Stands all p ts) : Matches all ts (.ok (a, p)) (.ok (a, ts)) :=
  .ok (List.suffix_refl ts) h

theorem matches_fail (h : Stands all p ts) :
    Matches all ts (Parser.fail (α := α) p) (.error (unexpected ts)) := by
  have hfail : Parser.fail (α := α) p = .error p.unexpected := rfl
  rw [hfail, h.unexpected]
  exact .error _

theorem Stands.bump {t : Lexeme} (h : Stands all p (t :: ts)) :
    ∃ p', Parser.bump p = .ok (t.token, p') ∧ Stands all p' ts := by
  rcases h.next with ⟨hnil, -⟩ | ⟨u, rest, after, hcons, hnext, hafter⟩
  · cases hnil
  · obtain ⟨rfl, rfl⟩ := List.cons.inj hcons
    exact ⟨⟨after, t.stop⟩, by rw [Parser.bump, hnext], hafter⟩

/-- A step behind a token that is there. -/
theorem Stands.matches_bump {t : Lexeme} (h : Stands all p (t :: ts)) {next : Token → Parsing α}
    {y : Except TypeError (α × List Lexeme)}
    (hnext : ∀ p', Stands all p' ts → Matches all ts (next t.token p') y) :
    Matches all (t :: ts) ((Parser.bump >>= next) p) y := by
  obtain ⟨p', hbump, hstands⟩ := h.bump
  rw [bind_apply, hbump]
  exact (hnext p' hstands).mono (List.suffix_cons t ts)

theorem Stands.eat (h : Stands all p ts) (c : Char) :
    ∃ p', Parser.eat c p = .ok (TypeExpr.at? c ts, p') ∧ Stands all p' (dropPunct c ts) := by
  have heat : Parser.eat c p = if p.peek == some (.punct c) then
      (Parser.bump p >>= fun r => .ok (true, r.2)) else .ok (false, p) := by
    rw [Parser.eat, bind_apply]
    change (if (p.peek == some (.punct c)) = true then _ else _ : Parsing Bool) p = _
    split <;> rfl
  rw [heat, h.at?, dropPunct]
  cases hat : TypeExpr.at? c ts with
  | false => exact ⟨p, rfl, h⟩
  | true =>
    obtain ⟨t, rest, rfl, -⟩ := exists_cons_of_at? hat
    obtain ⟨p', hbump, hstands⟩ := h.bump
    exact ⟨p', by rw [hbump]; rfl, hstands⟩

/-! ## Steps that only drop tokens -/

/-- The step takes the tokens that are dropped, and does not fail. -/
def Discards (all : List Lexeme) (step : Parsing β) (drop : List Lexeme → List Lexeme) : Prop :=
  ∀ ⦃p : Parser⦄ ⦃ts : List Lexeme⦄, Stands all p ts →
    ∃ b p', step p = .ok (b, p') ∧ drop ts <:+ ts ∧ Stands all p' (drop ts)

theorem dropPunct_suffix (c : Char) (ts : List Lexeme) : dropPunct c ts <:+ ts := by
  rw [dropPunct]
  split
  · exact List.tail_suffix ts
  · exact List.suffix_refl ts

theorem discards_eat (c : Char) : Discards all (Parser.eat c) (dropPunct c) := by
  intro p ts h
  obtain ⟨p', heat, hstands⟩ := h.eat c
  exact ⟨_, p', heat, dropPunct_suffix c ts, hstands⟩

theorem discards_skipIf {cond : Parser → Bool} {drop : List Lexeme → List Lexeme}
    (hnil : ∀ ⦃p⦄, Stands all p [] → cond p = false)
    (hdrop : ∀ ⦃p ts⦄, Stands all p ts → drop ts = if cond p then ts.tail else ts) :
    Discards all (Parser.skipIf cond) drop := by
  intro p ts h
  have hskip : Parser.skipIf cond p =
      if cond p then Parser.bump p >>= fun r => .ok ((), r.2) else .ok ((), p) := by
    rw [Parser.skipIf, bind_apply]
    change (if cond p = true then _ else _ : Parsing Unit) p = _
    split <;> rfl
  rw [hskip, hdrop h]
  cases hcond : cond p with
  | false => exact ⟨_, p, rfl, List.suffix_refl ts, h⟩
  | true =>
    cases ts with
    | nil => rw [hnil h] at hcond; cases hcond
    | cons t ts =>
      obtain ⟨p', hbump, hstands⟩ := h.bump
      exact ⟨_, p', by rw [hbump]; rfl, List.suffix_cons t ts, hstands⟩

theorem Discards.bind {γ : Type} {step : Parsing β} {step' : Parsing γ}
    {drop drop' : List Lexeme → List Lexeme} (h : Discards all step drop)
    (h' : Discards all step' drop') :
    Discards all (step >>= fun _ => step') fun ts => drop' (drop ts) := by
  intro p ts hstands
  obtain ⟨b, p₁, hstep, hsuffix, hstands₁⟩ := h hstands
  obtain ⟨b', p₂, hstep', hsuffix', hstands₂⟩ := h' hstands₁
  exact ⟨b', p₂, by rw [bind_apply, hstep]; exact hstep', hsuffix'.trans hsuffix, hstands₂⟩

theorem discards_parameterMarks : Discards all Parser.parameterMarks dropParameterMarks := by
  have hdots : Discards all (Parser.skipIf (·.peek == some .ellipsis))
      fun ts => if TypeExpr.peek ts == some .ellipsis then ts.tail else ts :=
    discards_skipIf (fun p h => h.atEllipsis) fun p ts h => by rw [h.atEllipsis]
  have hvariable : Discards all (Parser.skipIf Parser.atVariable) dropVariable := by
    refine discards_skipIf (fun p h => by rw [Parser.atVariable, h.peek]; rfl) fun p ts h => ?_
    rw [Parser.atVariable, h.peek, dropVariable]
    rcases TypeExpr.peek ts with _ | tok
    · rfl
    · cases tok <;> rfl
  have hdone : Discards all (pure ()) id := fun p ts h => ⟨(), p, rfl, List.suffix_refl ts, h⟩
  exact (discards_eat '&').bind (hdots.bind (hvariable.bind ((discards_eat '=').bind hdone)))

/-! ## Readers that follow each other -/

/-- The reader at an offset, at any larger depth, follows the one over tokens if the depth is
enough for these: eight calls for each of them, and some more. -/
def Tracks (all : List Lexeme) (extra : Nat) (step : Nat → Parsing α) (reader : Reader α)
    (depth : Nat) : Prop :=
  ∀ ⦃p : Parser⦄ ⦃ts : List Lexeme⦄ ⦃depth' : Nat⦄, Stands all p ts →
    8 * ts.length + extra ≤ depth → depth ≤ depth' →
      Matches all ts (step depth' p) (reader depth ts)

variable {extra depth : Nat} {step : Nat → Parsing α} {reader : Reader α}

theorem Tracks.mono (h : Tracks all extra step reader depth) (extra' : Nat)
    (hextra : extra ≤ extra') : Tracks all extra' step reader depth :=
  fun _ _ _ hstands hdepth hle => h hstands (by omega) hle

theorem tracks_zero (hextra : 0 < extra) : Tracks all extra step reader 0 :=
  fun _ _ _ _ hdepth _ => by omega

/-- One call deeper. -/
theorem Tracks.succ {step' : Nat → Parsing α} {reader' : Reader α}
    (h : Tracks all extra step reader depth) (hstep : ∀ depth, step' (depth + 1) = step depth)
    (hreader : ∀ depth ts, reader' (depth + 1) ts = reader depth ts) :
    Tracks all (extra + 1) step' reader' (depth + 1) := by
  intro p ts depth' hstands hdepth hle
  obtain ⟨depth', rfl⟩ : ∃ d, depth' = d + 1 := ⟨depth' - 1, by omega⟩
  rw [hstep, hreader]
  exact h hstands (by omega) (by omega)

theorem tracks_pure (a : α) : Tracks all extra (fun _ => pure a) (fun _ ts => .ok (a, ts)) depth :=
  fun _ _ _ hstands _ _ => matches_pure a hstands

theorem Tracks.bind {next : α → Nat → Parsing β} {next' : α → Reader β}
    (h : Tracks all extra step reader depth)
    (hnext : ∀ a, Tracks all extra (next a) (next' a) depth) :
    Tracks all extra (fun depth => step depth >>= fun a => next a depth)
      (fun depth ts => reader depth ts >>= fun r => next' r.1 depth r.2) depth := by
  intro p ts depth' hstands hdepth hle
  dsimp only
  rw [bind_apply]
  have hfirst := h hstands hdepth hle
  generalize step depth' p = x at hfirst ⊢
  generalize reader depth ts = y at hfirst ⊢
  cases hfirst with
  | error e => exact .error e
  | ok hleft hstands' =>
    have hlen := hleft.length_le
    exact (hnext _ hstands' (by omega) hle).mono hleft

theorem Tracks.discard {next : Parsing β} {drop : List Lexeme → List Lexeme}
    (h : Tracks all extra step reader depth) (hnext : Discards all next drop) :
    Tracks all extra (fun depth => next >>= fun _ => step depth)
      (fun depth ts => reader depth (drop ts)) depth := by
  intro p ts depth' hstands hdepth hle
  obtain ⟨b, p', hrun, hsuffix, hstands'⟩ := hnext hstands
  have hlen := hsuffix.length_le
  dsimp only
  rw [bind_apply, hrun]
  exact (h hstands' (by omega) hle).mono hsuffix

/-- A token that is taken whatever it is. At the end of the text there is none. -/
theorem Tracks.bump (h : Tracks all (extra + 8) step reader depth)
    (hnil : ∀ depth, reader depth [] = .error .unexpectedEnd) :
    Tracks all extra (fun depth => Parser.bump >>= fun _ => step depth)
      (fun depth ts => reader depth ts.tail) depth := by
  intro p ts depth' hstands hdepth hle
  cases ts with
  | nil =>
    have hend : Parser.bump p = .error .unexpectedEnd := by
      rcases hstands.next with ⟨-, hnext⟩ | ⟨_, _, _, hcons, -⟩
      · rw [Parser.bump, hnext]
      · cases hcons
    dsimp only
    rw [bind_apply, hend, List.tail_nil, hnil]
    exact .error _
  | cons t ts =>
    rw [List.length_cons] at hdepth
    exact hstands.matches_bump fun p' hstands' => h hstands' (by omega) hle

section Choices

variable {yes no : Nat → Parsing α} {yes' no' : Reader α} {cond : Parser → Bool}
  {cond' : List Lexeme → Bool}

/-- A choice by what is ahead. -/
theorem Tracks.ite (hyes : Tracks all extra yes yes' depth)
    (hno : Tracks all extra no no' depth)
    (hcond : ∀ ⦃p ts⦄, Stands all p ts → cond p = cond' ts) :
    Tracks all extra (fun depth => get >>= fun p => if cond p then yes depth else no depth)
      (fun depth ts => if cond' ts then yes' depth ts else no' depth ts) depth := by
  intro p ts depth' hstands hdepth hle
  change Matches all ts ((if cond p then yes depth' else no depth') p)
    (if cond' ts then yes' depth ts else no' depth ts)
  rw [hcond hstands]
  split
  · exact hyes hstands hdepth hle
  · exact hno hstands hdepth hle

/-- A choice after which the next token is taken. -/
theorem Tracks.ite_bump (hyes : Tracks all (extra + 8) yes yes' depth)
    (hno : Tracks all extra no no' depth)
    (hcond : ∀ ⦃p ts⦄, Stands all p ts → cond p = cond' ts) (hnil : cond' [] = false) :
    Tracks all extra
      (fun depth => get >>= fun p =>
        if cond p then Parser.bump >>= fun _ => yes depth else no depth)
      (fun depth ts => if cond' ts then yes' depth ts.tail else no' depth ts) depth := by
  intro p ts depth' hstands hdepth hle
  change Matches all ts ((if cond p then Parser.bump >>= fun _ => yes depth' else no depth') p)
    (if cond' ts then yes' depth ts.tail else no' depth ts)
  rw [hcond hstands]
  split
  · rename_i hc
    cases ts with
    | nil => rw [hnil] at hc; cases hc
    | cons t ts =>
      rw [List.length_cons] at hdepth
      exact hstands.matches_bump fun p' hstands' => hyes hstands' (by omega) hle
  · exact hno hstands hdepth hle

theorem Tracks.ite_eat (hyes : Tracks all (extra + 8) yes yes' depth)
    (hno : Tracks all extra no no' depth) (c : Char) :
    Tracks all extra
      (fun depth => Parser.eat c >>= fun found => if found then yes depth else no depth)
      (fun depth ts => if at? c ts then yes' depth ts.tail else no' depth ts) depth := by
  intro p ts depth' hstands hdepth hle
  obtain ⟨p', heat, hstands'⟩ := hstands.eat c
  change Matches all ts ((Parser.eat c >>= fun found => if found then yes depth' else no depth') p)
    (if at? c ts then yes' depth ts.tail else no' depth ts)
  rw [bind_apply, heat]
  by_cases hat : at? c ts = true
  · obtain ⟨t, ts, rfl, -⟩ := exists_cons_of_at? hat
    rw [dropPunct, if_pos hat, List.tail_cons] at hstands'
    rw [List.length_cons] at hdepth
    rw [if_pos hat, hat]
    exact (hyes hstands' (by omega) hle).mono (List.suffix_cons t ts)
  · rw [dropPunct, if_neg hat] at hstands'
    rw [if_neg hat, Bool.eq_false_iff.mpr hat]
    exact hno hstands' hdepth hle

end Choices

/-- A mark that has to be there, and what follows it. -/
theorem Tracks.expect (h : Tracks all extra step reader depth) (c : Char) :
    Tracks all extra (fun depth => Parser.expect c >>= fun _ => step depth)
      (fun depth ts => TypeExpr.expect c ts >>= fun ts => reader depth ts) depth := by
  intro p ts depth' hstands hdepth hle
  obtain ⟨p', heat, hstands'⟩ := hstands.eat c
  change Matches all ts ((Parser.expect c >>= fun _ => step depth') p)
    (TypeExpr.expect c ts >>= fun ts => reader depth ts)
  rw [bind_apply, Parser.expect, bind_apply, heat, TypeExpr.expect]
  by_cases hat : at? c ts = true
  · obtain ⟨t, ts, rfl, -⟩ := exists_cons_of_at? hat
    rw [dropPunct, if_pos hat, List.tail_cons] at hstands'
    rw [List.length_cons] at hdepth
    rw [if_pos hat, hat]
    exact (h hstands' (by omega) hle).mono (List.suffix_cons t ts)
  · rw [dropPunct, if_neg hat] at hstands'
    rw [if_neg hat, Bool.eq_false_iff.mpr hat, ← hstands'.unexpected]
    exact .error _

/-! ## Unions, intersections and `[]` -/

theorem tracks_union (hmember : Tracks all 3 Parser.intersection readIntersection depth)
    (hmore : Tracks all 1 Parser.alternatives readAlternatives depth) :
    Tracks all 4 Parser.union readUnion (depth + 1) := by
  have hunion := fun first => (hmore.mono 3 (by omega)).bind fun more =>
    tracks_pure (TypeExpr.union (first :: more))
  exact (hmember.bind fun first => (hunion first).ite (tracks_pure first) fun _ _ h =>
    h.at? '|').succ (fun _ => rfl) fun _ _ => rfl

theorem tracks_alternatives (hmember : Tracks all 3 Parser.intersection readIntersection depth)
    (hmore : Tracks all 1 Parser.alternatives readAlternatives depth) :
    Tracks all 1 Parser.alternatives readAlternatives (depth + 1) := by
  have hmembers := (hmember.mono (0 + 8) (by omega)).bind fun member =>
    (hmore.mono (0 + 8) (by omega)).bind fun more => tracks_pure (member :: more)
  exact (hmembers.ite_eat (tracks_pure []) '|').succ (fun _ => rfl) fun _ _ => rfl

theorem tracks_intersection (hmember : Tracks all 2 Parser.suffixed readPostfix depth)
    (hmore : Tracks all 1 Parser.conjuncts readConjuncts depth) :
    Tracks all 3 Parser.intersection readIntersection (depth + 1) :=
  (hmember.bind fun first => (hmore.mono 2 (by omega)).bind fun more =>
    tracks_pure (if more.isEmpty then first else TypeExpr.inter (first :: more))).succ
    (fun _ => rfl) fun _ _ => rfl

theorem tracks_conjuncts (hmember : Tracks all 2 Parser.suffixed readPostfix depth)
    (hmore : Tracks all 1 Parser.conjuncts readConjuncts depth) :
    Tracks all 1 Parser.conjuncts readConjuncts (depth + 1) := by
  have hmembers := (hmember.mono (0 + 8) (by omega)).bind fun member =>
    (hmore.mono (0 + 8) (by omega)).bind fun more => tracks_pure (member :: more)
  exact (hmembers.ite_bump (tracks_pure []) (fun _ _ h => h.atIntersection) rfl).succ
    (fun _ => rfl) fun _ _ => rfl

theorem readBrackets_eq (t : TypeExpr) (ts : List Lexeme) : readBrackets t ts =
    if at? '[' ts && at? ']' ts.tail then readBrackets (.array t) ts.tail.tail else (t, ts) := by
  rw [readBrackets.eq_def]
  split
  · rfl
  · rename_i hnot
    rw [if_neg]
    intro hat
    rw [Bool.and_eq_true] at hat
    obtain ⟨⟨tok, s, e⟩, ts, rfl, rfl⟩ := exists_cons_of_at? hat.1
    obtain ⟨⟨tok, s', e'⟩, ts, rfl, rfl⟩ := exists_cons_of_at? hat.2
    exact hnot _ _ _ _ _ rfl

theorem tracks_brackets (depth : Nat) (t : TypeExpr) :
    Tracks all 1 (fun depth => Parser.brackets depth t) (fun _ ts => .ok (readBrackets t ts))
      depth := by
  induction depth generalizing t with
  | zero => exact tracks_zero (by omega)
  | succ depth ih =>
    intro p ts depth' hstands hdepth hle
    obtain ⟨depth', rfl⟩ : ∃ d, depth' = d + 1 := ⟨depth' - 1, by omega⟩
    dsimp only
    rw [Parser.brackets, get_bind_apply, hstands.atBrackets, readBrackets_eq]
    split
    · rename_i hat
      rw [Bool.and_eq_true] at hat
      obtain ⟨opening, ts, rfl, -⟩ := exists_cons_of_at? hat.1
      obtain ⟨closing, ts, rfl, -⟩ := exists_cons_of_at? hat.2
      simp only [List.length_cons] at hdepth
      refine hstands.matches_bump fun p₁ hstands₁ => hstands₁.matches_bump fun p₂ hstands₂ => ?_
      exact ih (.array t) hstands₂ (by omega) (by omega)
    · exact matches_pure t hstands

theorem tracks_suffixed (hatom : Tracks all 1 Parser.atom readAtom depth) :
    Tracks all 2 Parser.suffixed readPostfix (depth + 1) :=
  (hatom.bind fun t => tracks_brackets depth t).succ (fun _ => rfl) fun _ _ => rfl

/-! ## Atoms -/

theorem tracks_atom (hsuffixed : Tracks all 2 Parser.suffixed readPostfix depth)
    (hinner : Tracks all 5 Parser.parenthesized readParenthesized depth)
    (hnamed : ∀ base, Tracks all 1 (fun depth => Parser.named depth base)
      (fun depth ts => readNamed depth base ts) depth) :
    Tracks all 1 Parser.atom readAtom (depth + 1) := by
  have hnullable := hsuffixed.bind fun inner => tracks_pure (TypeExpr.nullable inner)
  suffices hbody : Tracks all 0 (fun depth => Parser.atom (depth + 1))
      (fun depth ts => readAtom (depth + 1) ts) depth from
    hbody.succ (fun _ => rfl) fun _ _ => rfl
  intro p ts depth' hstands hdepth hle
  dsimp only
  rw [Parser.atom, get_bind_apply, hstands.peek, readAtom]
  cases ts with
  | nil => exact .error _
  | cons t ts =>
    have hpeek : peek (t :: ts) = some t.token := rfl
    rw [List.length_cons] at hdepth
    simp only [hpeek, List.tail_cons]
    generalize t.token = tok
    split
    case h_8 =>
      have hfail : ∀ {step : Parsing TypeExpr}, step = Parser.fail →
          Matches all (t :: ts) (step p) (.error (unexpected (t :: ts))) := by
        rintro _ rfl
        exact matches_fail hstands
      refine hfail ?_
      split <;> simp_all
    all_goals
      rename_i htok
      cases htok
      refine hstands.matches_bump fun p' hstands' => ?_
    case h_1.refl => exact hnullable hstands' (by omega) hle
    case h_2.refl => exact hinner hstands' (by omega) hle
    case h_7.refl text => exact hnamed text hstands' (by omega) hle
    all_goals exact matches_pure _ hstands'

theorem tracks_named (hparams : Tracks all 5 Parser.genericParams readParams depth)
    (hfields : Tracks all 6 Parser.shapeFields readFields depth)
    (hsignature : Tracks all 5 Parser.callableParams readCallableParams depth)
    (hsuffixed : Tracks all 2 Parser.suffixed readPostfix depth) (base : String) :
    Tracks all 1 (fun depth => Parser.named depth base) (fun depth ts => readNamed depth base ts)
      (depth + 1) := by
  have hgeneric := (hparams.mono (0 + 8) (by omega)).bind fun params =>
    tracks_pure (TypeExpr.generic base params)
  have hshape := (hfields.mono (0 + 8) (by omega)).bind fun fields =>
    tracks_pure (TypeExpr.shape base fields)
  have hresult := fun params => (hsuffixed.mono (0 + 8 + 8) (by omega)).bind fun result =>
    tracks_pure (TypeExpr.callable base params (some result))
  have hcallable := (hsignature.mono (0 + 8) (by omega)).bind fun params =>
    (hresult params).ite_eat (tracks_pure (TypeExpr.callable base params none)) ':'
  have hparen := hcallable.ite_bump (tracks_pure (TypeExpr.name base))
    (fun _ _ h => h.at?_and '(' (callableBases.contains (lower base))) rfl
  have hbrace := hshape.ite_bump hparen
    (fun _ _ h => h.at?_and '\x7b' (shapeBases.contains (lower base))) rfl
  exact (hgeneric.ite_bump hbrace (fun _ _ h => h.at? '<') rfl).succ (fun _ => rfl) fun _ _ => rfl

theorem readUnion_nil (depth : Nat) : readUnion depth [] = .error .unexpectedEnd := by
  rcases depth with _ | _ | _ | _ | depth <;> rfl

theorem tracks_conditionalTail (hunion : Tracks all 4 Parser.union readUnion depth) :
    Tracks all 1 Parser.conditionalTail readConditional (depth + 1) := by
  have hno := fun yes => (hunion.bind fun no =>
    (tracks_pure (TypeExpr.conditional yes no)).expect ')').expect ':'
  have hyes := (hunion.bind fun yes => hno yes).expect '?'
  have hnot : Discards all (Parser.skipIf (·.atWord "not"))
      fun ts => if atWord "not" ts then ts.tail else ts :=
    discards_skipIf (fun p h => by rw [h.atWord]; rfl) fun p ts h => by rw [h.atWord]
  have hbody := ((hunion.bind fun _ => hyes).mono (0 + 8) (by omega)).discard hnot
  refine (hbody.bump fun depth => ?_).succ (fun _ => rfl) fun _ _ => rfl
  change readUnion depth [] >>= _ = _
  rw [readUnion_nil]
  rfl

theorem tracks_parenthesized (hunion : Tracks all 4 Parser.union readUnion depth)
    (hconditional : Tracks all 1 Parser.conditionalTail readConditional depth) :
    Tracks all 5 Parser.parenthesized readParenthesized (depth + 1) := by
  have hinner := hunion.bind fun inner => (hconditional.mono 4 (by omega)).ite
    ((tracks_pure inner).expect ')') fun _ _ h => h.atWord "is"
  exact ((hconditional.mono (4 + 8) (by omega)).ite_bump hinner
    (fun _ _ h => h.atSubject) rfl).succ (fun _ => rfl) readParenthesized_succ

/-! ## Lists in brackets -/

/-- What follows an item of a list: a comma and more items, or the end of the list. -/
theorem Tracks.more {rest : Nat → Parsing (List α)} {rest' : Reader (List α)}
    (h : Tracks all (extra + 8) rest rest' depth) (x : α) (closing : Char) :
    Tracks all extra
      (fun depth => Parser.eat ',' >>= fun found =>
        if found then rest depth >>= fun more => pure (x :: more)
        else Parser.expect closing >>= fun _ => pure [x])
      (fun depth ts => if at? ',' ts then rest' depth ts.tail >>= fun r => .ok (x :: r.1, r.2)
        else TypeExpr.expect closing ts >>= fun ts => .ok ([x], ts)) depth :=
  (h.bind fun more => tracks_pure (x :: more)).ite_eat ((tracks_pure [x]).expect closing) ','

theorem tracks_genericParams (hunion : Tracks all 4 Parser.union readUnion depth)
    (hmore : Tracks all 5 Parser.genericParams readParams depth) :
    Tracks all 5 Parser.genericParams readParams (depth + 1) := by
  have hvariance : Discards all (Parser.skipIf Parser.atVariance) dropVariance :=
    discards_skipIf (fun p h => by rw [Parser.atVariance, h.peek]; rfl)
      fun p ts h => h.dropVariance_eq
  have hlist := (hunion.bind fun param => (hmore.mono (4 + 8) (by omega)).more param '>').discard
    hvariance
  exact ((tracks_pure []).ite_eat hlist '>').succ (fun _ => rfl) fun _ _ => rfl

theorem tracks_callableParams (hunion : Tracks all 4 Parser.union readUnion depth)
    (hmore : Tracks all 5 Parser.callableParams readCallableParams depth) :
    Tracks all 5 Parser.callableParams readCallableParams (depth + 1) := by
  have hlist := hunion.bind fun param =>
    ((hmore.mono (4 + 8) (by omega)).more param ')').discard discards_parameterMarks
  exact ((tracks_pure []).ite_eat hlist ')').succ (fun _ => rfl) fun _ _ => rfl

theorem key_of_fieldKey? {t : Lexeme} {key : String} (h : fieldKey? (t :: ts) = some key) :
    t.token.key = key := by
  rw [fieldKey?_cons, Option.ite_none_right_eq_some] at h
  obtain ⟨-, hkey⟩ := h
  cases htok : t.token <;> rw [htok] at hkey <;> cases hkey <;> rfl

theorem tracks_shapeField (hunion : Tracks all 4 Parser.union readUnion depth) :
    Tracks all 5 Parser.shapeField readField (depth + 1) := by
  have hvalue := fun key optional => hunion.bind fun value =>
    tracks_pure (ShapeField.mk key optional value)
  suffices hbody : Tracks all 4 (fun depth => Parser.shapeField (depth + 1))
      (fun depth ts => readField (depth + 1) ts) depth from
    hbody.succ (fun _ => rfl) fun _ _ => rfl
  intro p ts depth' hstands hdepth hle
  dsimp only
  rw [Parser.shapeField, get_bind_apply, hstands.atKey, readField]
  cases hkey : fieldKey? ts with
  | none => exact hvalue none false hstands hdepth hle
  | some key =>
    cases ts with
    | nil => cases hkey
    | cons t ts =>
      have hspelled : t.token.key = key := key_of_fieldKey? hkey
      have hsuffix := dropPunct_suffix '?' ts
      have hlen := hsuffix.length_le
      rw [List.length_cons] at hdepth
      refine hstands.matches_bump fun p₁ hstands₁ => ?_
      obtain ⟨p₂, heat, hstands₂⟩ := hstands₁.eat '?'
      rw [bind_apply, heat, hspelled]
      exact ((hvalue (some key) (at? '?' ts)).expect ':' hstands₂ (by omega) hle).mono hsuffix

theorem tracks_shapeFields (hfield : Tracks all 5 Parser.shapeField readField depth)
    (hmore : Tracks all 6 Parser.shapeFields readFields depth) :
    Tracks all 6 Parser.shapeFields readFields (depth + 1) := by
  have hlist := hfield.bind fun field => (hmore.mono (5 + 8) (by omega)).more field '\x7d'
  have hfields := ((tracks_pure ([] : List ShapeField)).expect '\x7d').ite_bump hlist
    (fun _ _ h => h.atEllipsis) rfl
  exact ((tracks_pure []).ite_eat hfields '\x7d').succ (fun _ => rfl) fun _ _ => rfl

/-! ## All readers -/

/-- All readers of types at a depth. -/
structure TrackReaders (all : List Lexeme) (depth : Nat) : Prop where
  union : Tracks all 4 Parser.union readUnion depth
  alternatives : Tracks all 1 Parser.alternatives readAlternatives depth
  intersection : Tracks all 3 Parser.intersection readIntersection depth
  conjuncts : Tracks all 1 Parser.conjuncts readConjuncts depth
  suffixed : Tracks all 2 Parser.suffixed readPostfix depth
  atom : Tracks all 1 Parser.atom readAtom depth
  named : ∀ base, Tracks all 1 (fun depth => Parser.named depth base)
    (fun depth ts => readNamed depth base ts) depth
  parenthesized : Tracks all 5 Parser.parenthesized readParenthesized depth
  conditional : Tracks all 1 Parser.conditionalTail readConditional depth
  params : Tracks all 5 Parser.genericParams readParams depth
  fields : Tracks all 6 Parser.shapeFields readFields depth
  field : Tracks all 5 Parser.shapeField readField depth
  callableParams : Tracks all 5 Parser.callableParams readCallableParams depth

theorem trackReaders (all : List Lexeme) (depth : Nat) : TrackReaders all depth := by
  induction depth with
  | zero => constructor <;> intros <;> exact tracks_zero (by omega)
  | succ depth ih =>
    exact {
      union := tracks_union ih.intersection ih.alternatives
      alternatives := tracks_alternatives ih.intersection ih.alternatives
      intersection := tracks_intersection ih.suffixed ih.conjuncts
      conjuncts := tracks_conjuncts ih.suffixed ih.conjuncts
      suffixed := tracks_suffixed ih.atom
      atom := tracks_atom ih.suffixed ih.parenthesized ih.named
      named := tracks_named ih.params ih.fields ih.callableParams ih.suffixed
      parenthesized := tracks_parenthesized ih.union ih.conditional
      conditional := tracks_conditionalTail ih.union
      params := tracks_genericParams ih.union ih.params
      fields := tracks_shapeFields ih.field ih.fields
      field := tracks_shapeField ih.union
      callableParams := tracks_callableParams ih.union ih.callableParams }

/-! ## Texts -/

theorem stands_ofText (input : List Char) :
    Stands (lexemes input) (.ofText input) (lexemes input) where
  tokens := by
    have hrest : (Lexer.ofText input).rest = input := dropBytes_append [] input
    rw [Parser.ofText, Lexer.tokens, hrest]
    rfl
  suffix := List.suffix_refl _
  consumed := (@consumed_append [] 0 (fun _ => rfl) (by simp) (lexemes input)).symm

/-- **A type is read alike from a text and from its tokens**, with the same error if there is
none. -/
theorem prefixOf_eq_readPrefix (input : List Char) : prefixOf input = readPrefix input := by
  have hlength : (lexemes input).length ≤ input.length := length_scan_le _ _ _
  have hdepth : readingDepth (lexemes input) ≤ Parser.depthFor input.length := by
    rw [readingDepth, Parser.depthFor]
    omega
  have hmatch := (trackReaders (lexemes input) (readingDepth (lexemes input))).union
    (stands_ofText input) (by rw [readingDepth]; omega) hdepth
  unfold prefixOf readPrefix
  dsimp only [StateT.run]
  generalize Parser.union (Parser.depthFor input.length) (.ofText input) = x at hmatch ⊢
  generalize readUnion (readingDepth (lexemes input)) (lexemes input) = y at hmatch ⊢
  cases hmatch with
  | error e => rfl
  | ok _ hstands =>
    simp only [bind, Except.bind, pure, Except.pure, hstands.consumed]

theorem wholeOf_eq_read (input : List Char) : wholeOf input = read input := by
  rewrite [wholeOf, read, prefixOf_eq_readPrefix]
  rfl

theorem parse_eq_read (text : String) : parse text = read text.toList :=
  wholeOf_eq_read text.toList

theorem parsePrefix_eq_readPrefix (text : String) : parsePrefix text = readPrefix text.toList :=
  prefixOf_eq_readPrefix text.toList

/-- The tokens of a text as they come one after another. -/
def tokenSequence (text : String) : List Token :=
  ((Lexer.ofText text.toList).taken text.toList.length).map Lexeme.token

theorem tokenSequence_eq (text : String) : tokenSequence text = tokensOf text.toList := by
  have htokens : (Lexer.ofText text.toList).tokens = lexemes text.toList :=
    (stands_ofText text.toList).tokens
  rw [tokenSequence, Lexer.taken_eq_tokens, htokens, tokensOf]
  rw [htokens]
  exact length_scan_le _ _ _

end ClassDocs.TypeExpr

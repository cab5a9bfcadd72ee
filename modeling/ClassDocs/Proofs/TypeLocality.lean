import ClassDocs.Proofs.TypeTokens

/-!
# A reader depends on what it takes and on where it stops

A reader of types looks one or two tokens past the place where it stops, so what it gives could
depend on tokens that it leaves. It does so only in one way: a reader goes on where a mark tells it
to. Take the tokens away that were left, or cut the text inside one of them, and no such mark
appears (`Cut`). So the reader takes the same tokens again and stops at the same place
(`Takes.again`).

The bound on the depth of calls is settled on the way: eight calls for each token taken are enough,
whatever else the text holds. The induction is on the depth, over all readers at once, with
one lemma for each of them.
-/

namespace ClassDocs.TypeExpr

open ClassDocs.Text

/-! ## Tokens left over, and cut short -/

/-- Before such a token an `&` marks a parameter passed by reference. -/
def Token.marksReference : Token → Bool
  | .variable _ | .ellipsis => true
  | _ => false

/--
`Cut ts' ts`: the text of `ts` was cut off somewhere, which left `ts'`. A token that was cut inside
may give several others, of which the first is no mark, and is still a variable if it was one.
-/
inductive Cut : List Lexeme → List Lexeme → Prop where
  | nil (ts : List Lexeme) : Cut [] ts
  | inside {t' t : Lexeme} (ts' ts : List Lexeme) : (∀ c, t'.token ≠ .punct c) →
      (t.token.marksReference = true → t'.token.marksReference = true) → Cut (t' :: ts') (t :: ts)
  | cons (t : Lexeme) {ts' ts : List Lexeme} : Cut ts' ts → Cut (t :: ts') (t :: ts)

theorem Cut.refl (ts : List Lexeme) : Cut ts ts := by
  induction ts with
  | nil => exact .nil []
  | cons t ts ih => exact .cons t ih

theorem Cut.append {ts' ts : List Lexeme} (h : Cut ts' ts) (front : List Lexeme) :
    Cut (front ++ ts') (front ++ ts) := by
  induction front with
  | nil => exact h
  | cons t front ih => exact .cons t ih

theorem at?_nil (c : Char) : at? c [] = false := rfl

theorem at?_cons {c : Char} {t : Lexeme} {ts : List Lexeme} :
    at? c (t :: ts) = true ↔ t.token = .punct c := by
  simp [at?, peek]

theorem at?_cons_of_ne {c : Char} {t : Lexeme} (ts : List Lexeme) (h : t.token ≠ .punct c) :
    at? c (t :: ts) = false := by
  rw [Bool.eq_false_iff]
  exact fun hat => h (at?_cons.mp hat)

theorem exists_cons_of_at? {c : Char} {ts : List Lexeme} (h : at? c ts = true) :
    ∃ t rest, ts = t :: rest ∧ t.token = .punct c := by
  cases ts with
  | nil => simp [at?_nil] at h
  | cons t rest => exact ⟨t, rest, rfl, at?_cons.mp h⟩

/-- No mark appears where none was. -/
theorem Cut.at? {ts' ts : List Lexeme} (h : Cut ts' ts) {c : Char} (hat : at? c ts = false) :
    at? c ts' = false := by
  cases h with
  | nil => rfl
  | inside ts' ts hmark _ => exact at?_cons_of_ne ts' (hmark c)
  | cons t _ => exact hat

theorem atIntersection_eq (ts : List Lexeme) :
    atIntersection ts = (at? '&' ts && (peek ts.tail).any (!·.marksReference)) := by
  unfold atIntersection peekSecond
  rcases peek ts.tail with _ | tok
  · rfl
  · cases tok <;> rfl

theorem Cut.peek {ts' ts : List Lexeme} (h : Cut ts' ts)
    (hany : (TypeExpr.peek ts).any (!·.marksReference) = false) :
    (TypeExpr.peek ts').any (!·.marksReference) = false := by
  cases h with
  | nil => rfl
  | inside ts' ts _ hreference =>
    simp only [TypeExpr.peek, List.head?_cons, Option.map_some, Option.any_some,
      Bool.not_eq_eq_eq_not, Bool.not_false] at hany ⊢
    exact hreference hany
  | cons t _ => exact hany

theorem Cut.atIntersection {ts' ts : List Lexeme} (h : Cut ts' ts)
    (hat : atIntersection ts = false) :
    atIntersection ts' = false := by
  rw [atIntersection_eq, Bool.and_eq_false_iff] at hat ⊢
  rcases hat with hat | hany
  · exact Or.inl (h.at? hat)
  · cases h with
    | nil => exact Or.inl rfl
    | inside ts' ts hmark _ => exact Or.inl (at?_cons_of_ne ts' (hmark '&'))
    | cons t h => exact Or.inr (h.peek hany)

/-! ## Taking tokens -/

/-- A reader with a bound on the depth of its calls. -/
abbrev Reader (α : Type) := Nat → List Lexeme → Except TypeError (α × List Lexeme)

/-- The token can be part of a type. -/
def Token.Proper (tok : Token) : Prop := ∀ c, tok ≠ .other c

theorem proper_punct (c : Char) : (Token.punct c).Proper := nofun

variable {α β : Type} {extra extra' least least' depth : Nat}

/--
The reader takes the tokens `used`, gives `a` and stops before `left`. Each token counts for eight
calls; `extra` calls are for the way to the first one.
-/
structure Takes (extra : Nat) (reader : Reader α) (used : List Lexeme) (a : α)
    (left : List Lexeme) : Prop where
  proper : ∀ t ∈ used, t.token.Proper
  /-- The tokens are taken again if what was left is cut off somewhere. -/
  again : ∀ {left' : List Lexeme} {depth : Nat}, Cut left' left → 8 * used.length + extra ≤ depth →
    reader depth (used ++ left') = .ok (a, left')

/-- At this depth, whatever the reader gives it gives for the tokens it takes, of which there are
at least `least`. -/
def Local (extra least : Nat) (reader : Reader α) (depth : Nat) : Prop :=
  ∀ ⦃ts : List Lexeme⦄ ⦃a : α⦄ ⦃left : List Lexeme⦄, reader depth ts = .ok (a, left) →
    ∃ used, ts = used ++ left ∧ least ≤ used.length ∧ Takes extra reader used a left

/-- The same where the next token is known: it is one of those taken. -/
def LocalAt (p : Token → Prop) (extra : Nat) (reader : Reader α) (depth : Nat) : Prop :=
  ∀ ⦃t : Lexeme⦄ ⦃ts : List Lexeme⦄ ⦃a : α⦄ ⦃left : List Lexeme⦄, p t.token →
    reader depth (t :: ts) = .ok (a, left) →
    ∃ used, ts = used ++ left ∧ Takes extra reader (t :: used) a left

/-- The same where a choice by the tokens ahead has this value, which it keeps if what was left is
cut off. -/
def LocalIf (cond : List Lexeme → Bool) (value : Bool) (extra least : Nat) (reader : Reader α)
    (depth : Nat) : Prop :=
  ∀ ⦃ts : List Lexeme⦄ ⦃a : α⦄ ⦃left : List Lexeme⦄, cond ts = value →
    reader depth ts = .ok (a, left) →
    ∃ used, ts = used ++ left ∧ least ≤ used.length ∧ Takes extra reader used a left ∧
      ∀ left', Cut left' left → cond (used ++ left') = value

theorem exists_of_bind_eq_ok {ε : Type} {x : Except ε α} {f : α → Except ε β} {b : β}
    (h : x >>= f = .ok b) :
    ∃ a, x = .ok a ∧ f a = .ok b := by
  cases x with
  | error e => cases h
  | ok a => exact ⟨a, rfl, h⟩

theorem Takes.mono {reader : Reader α} {used left : List Lexeme} {a : α}
    (h : Takes extra reader used a left) (hextra : extra ≤ extra') :
    Takes extra' reader used a left :=
  ⟨h.proper, fun hcut hdepth => h.again hcut (by omega)⟩

theorem Local.mono {reader : Reader α} (h : Local extra least reader depth)
    (hextra : extra ≤ extra') (hleast : least' ≤ least) : Local extra' least' reader depth := by
  intro ts a left hread
  obtain ⟨used, hused, hle, htakes⟩ := h hread
  exact ⟨used, hused, by omega, htakes.mono hextra⟩

/-- A reader that fails when its bound is used up. -/
theorem local_zero {reader : Reader α} (h : ∀ ts, reader 0 ts = .error (unexpected ts)) :
    Local extra least reader 0 := by
  intro ts a left hread
  rw [h] at hread
  cases hread

/-- One call deeper. -/
theorem Takes.succ {reader body : Reader α} {used left : List Lexeme} {a : α}
    (h : Takes extra body used a left)
    (hreader : ∀ depth ts, reader (depth + 1) ts = body depth ts) :
    Takes (extra + 1) reader used a left where
  proper := h.proper
  again := by
    intro left' depth hcut hdepth
    obtain ⟨depth, rfl⟩ : ∃ d, depth = d + 1 := ⟨depth - 1, by omega⟩
    rw [hreader]
    exact h.again hcut (by omega)

theorem Local.succ {reader body : Reader α} (h : Local extra least body depth)
    (hreader : ∀ depth ts, reader (depth + 1) ts = body depth ts) :
    Local (extra + 1) least reader (depth + 1) := by
  intro ts a left hread
  rw [hreader] at hread
  obtain ⟨used, hused, hle, htakes⟩ := h hread
  exact ⟨used, hused, hle, htakes.succ hreader⟩

theorem LocalAt.succ {p : Token → Prop} {reader body : Reader α} (h : LocalAt p extra body depth)
    (hreader : ∀ depth ts, reader (depth + 1) ts = body depth ts) :
    LocalAt p (extra + 1) reader (depth + 1) := by
  intro t ts a left hp hread
  rw [hreader] at hread
  obtain ⟨used, hused, htakes⟩ := h hp hread
  exact ⟨used, hused, htakes.succ hreader⟩

theorem local_pure (a : α) (depth : Nat) : Local 0 0 (fun _ ts => .ok (a, ts)) depth := by
  intro ts b left hread
  cases hread
  exact ⟨[], rfl, Nat.le_refl _, by simp, fun _ _ => rfl⟩

/-- What two readers take one after the other. -/
theorem Takes.bind {first : Reader α} {second : α → Reader β} {used more left : List Lexeme}
    {a : α} {b : β} (h : Takes extra first used a (more ++ left))
    (h' : Takes extra' (second a) more b left) (hextra : extra' ≤ extra + 8 * used.length) :
    Takes extra (fun depth ts => first depth ts >>= fun r => second r.1 depth r.2)
      (used ++ more) b left where
  proper := List.forall_mem_append.mpr ⟨h.proper, h'.proper⟩
  again := by
    intro left' depth hcut hdepth
    rw [List.length_append] at hdepth
    rw [List.append_assoc, h.again (hcut.append more) (by omega)]
    exact h'.again hcut (by omega)

theorem Local.bind {first : Reader α} {second : α → Reader β} (h : Local extra least first depth)
    (h' : ∀ a, Local extra' least' (second a) depth) (hextra : extra' ≤ extra + 8 * least) :
    Local extra (least + least')
      (fun depth ts => first depth ts >>= fun r => second r.1 depth r.2) depth := by
  intro ts b left hread
  obtain ⟨⟨a, mid⟩, hfirst, hsecond⟩ := exists_of_bind_eq_ok hread
  obtain ⟨used, rfl, hle, htakes⟩ := h hfirst
  obtain ⟨more, rfl, hle', htakes'⟩ := h' a hsecond
  refine ⟨used ++ more, (List.append_assoc _ _ _).symm, by rw [List.length_append]; omega, ?_⟩
  exact htakes.bind htakes' (by omega)

theorem LocalAt.bind {p : Token → Prop} {first : Reader α} {second : α → Reader β}
    (h : LocalAt p extra first depth) (h' : ∀ a, Local extra' least' (second a) depth)
    (hextra : extra' ≤ extra + 8) :
    LocalAt p extra (fun depth ts => first depth ts >>= fun r => second r.1 depth r.2) depth := by
  intro t ts b left hp hread
  obtain ⟨⟨a, mid⟩, hfirst, hsecond⟩ := exists_of_bind_eq_ok hread
  obtain ⟨used, rfl, htakes⟩ := h hp hfirst
  obtain ⟨more, rfl, -, htakes'⟩ := h' a hsecond
  refine ⟨used ++ more, (List.append_assoc _ _ _).symm, ?_⟩
  exact htakes.bind htakes' (by rw [List.length_cons]; omega)

/-- The next token is skipped. -/
theorem Takes.tail {reader : Reader α} {t : Lexeme} {used left : List Lexeme} {a : α}
    (h : Takes extra reader used a left) (ht : t.token.Proper) (hextra : extra ≤ extra' + 8) :
    Takes extra' (fun depth ts => reader depth ts.tail) (t :: used) a left where
  proper := List.forall_mem_cons.mpr ⟨ht, h.proper⟩
  again := by
    intro left' depth hcut hdepth
    rw [List.length_cons] at hdepth
    exact h.again hcut (by omega)

theorem Local.tail {p : Token → Prop} {reader : Reader α} (h : Local extra least reader depth)
    (extra' : Nat) (hp : ∀ tok, p tok → tok.Proper) (hextra : extra ≤ extra' + 8) :
    LocalAt p extra' (fun depth ts => reader depth ts.tail) depth := by
  intro t ts a left ht hread
  obtain ⟨used, hused, -, htakes⟩ := h hread
  exact ⟨used, hused, htakes.tail (hp _ ht) hextra⟩

/-- A reader at its next token, given as another one. -/
theorem LocalAt.congr {p : Token → Prop} {reader reader' : Reader α}
    (h : LocalAt p extra reader depth)
    (heq : ∀ depth t ts, p t.token → reader' depth (t :: ts) = reader depth (t :: ts)) :
    LocalAt p extra reader' depth := by
  intro t ts a left hp hread
  rw [heq _ _ _ hp] at hread
  obtain ⟨used, hused, htakes⟩ := h hp hread
  refine ⟨used, hused, htakes.proper, ?_⟩
  intro left' depth' hcut hdepth
  rw [List.cons_append, heq _ _ _ hp]
  exact htakes.again hcut hdepth

theorem Local.after {reader : Reader α} (h : Local extra least reader depth) (c : Char)
    (extra' : Nat) (hextra : extra ≤ extra' + 8) :
    LocalAt (· = .punct c) extra' (fun depth ts => reader depth ts.tail) depth :=
  h.tail extra' (by rintro _ rfl; exact proper_punct c) hextra

theorem local_ite {yes no : Reader α} {cond : List Lexeme → Bool}
    (hyes : LocalIf cond true extra least yes depth)
    (hno : LocalIf cond false extra least no depth) :
    Local extra least (fun depth ts => if cond ts then yes depth ts else no depth ts) depth := by
  intro ts a left hread
  dsimp only at hread
  cases hc : cond ts with
  | true =>
    rw [if_pos hc] at hread
    obtain ⟨used, hused, hle, htakes, hstay⟩ := hyes hc hread
    refine ⟨used, hused, hle, htakes.proper, ?_⟩
    intro left' depth' hcut hdepth
    simp only [hstay left' hcut, if_true]
    exact htakes.again hcut hdepth
  | false =>
    rw [if_neg (by simp [hc])] at hread
    obtain ⟨used, hused, hle, htakes, hstay⟩ := hno hc hread
    refine ⟨used, hused, hle, htakes.proper, ?_⟩
    intro left' depth' hcut hdepth
    simp only [hstay left' hcut, Bool.false_eq_true, if_false]
    exact htakes.again hcut hdepth

/-- A choice by the next token alone. -/
theorem LocalAt.ite {yes no : Reader α} {p : Token → Prop} (hyes : LocalAt p extra yes depth)
    (cond : List Lexeme → Bool) (hno : Local extra least no depth) (hleast : least ≤ 1)
    (hcond : ∀ ts, cond ts = true ↔ ∃ t rest, ts = t :: rest ∧ p t.token)
    (hstay : least = 0 → ∀ {ts' ts : List Lexeme}, Cut ts' ts → cond ts = false →
      cond ts' = false) :
    Local extra least (fun depth ts => if cond ts then yes depth ts else no depth ts) depth := by
  refine local_ite ?_ ?_
  · intro ts a left hc hread
    obtain ⟨t, rest, rfl, ht⟩ := (hcond ts).mp hc
    obtain ⟨used, rfl, htakes⟩ := hyes ht hread
    exact ⟨t :: used, rfl,
      by rw [List.length_cons]; omega, htakes, fun _ _ => (hcond _).mpr ⟨t, _, rfl, ht⟩⟩
  · intro ts a left hc hread
    obtain ⟨used, rfl, hle, htakes⟩ := hno hread
    refine ⟨used, rfl, hle, htakes, fun left' hcut => ?_⟩
    -- the token that decides is still there, unless nothing is taken, when it may have been cut
    -- off
    cases used with
    | nil => exact hstay (Nat.le_zero.mp hle) hcut hc
    | cons t used =>
      rw [Bool.eq_false_iff, Ne, hcond] at hc ⊢
      rintro ⟨t', rest, heq, ht⟩
      cases heq
      exact hc ⟨t, _, rfl, ht⟩

theorem LocalAt.ite_at {yes no : Reader α} {c : Char}
    (hyes : LocalAt (· = .punct c) extra yes depth) (hno : Local extra least no depth)
    (hleast : least ≤ 1) :
    Local extra least (fun depth ts => if at? c ts then yes depth ts else no depth ts) depth := by
  refine hyes.ite (at? c) hno hleast (fun ts => ⟨exists_cons_of_at?, ?_⟩) fun _ _ _ hcut =>
    hcut.at?
  rintro ⟨t, rest, rfl, ht⟩
  exact at?_cons.mpr ht

/-- A mark that counts only if a further condition holds, which has nothing to do with the
tokens. -/
theorem LocalAt.ite_at_and {yes no : Reader α} {c : Char}
    (hyes : LocalAt (· = .punct c) extra yes depth) (hno : Local extra least no depth)
    (hleast : least ≤ 1) (b : Bool) :
    Local extra least
      (fun depth ts => if at? c ts && b then yes depth ts else no depth ts) depth := by
  cases b with
  | true =>
    simp only [Bool.and_true]
    exact hyes.ite_at hno hleast
  | false =>
    simp only [Bool.and_false, Bool.false_eq_true, if_false]
    exact hno

/-- A mark that has to be there, and what follows it. -/
theorem Local.expect {reader : Reader α} (h : Local extra least reader depth) (c : Char) :
    Local extra (least + 1)
      (fun depth ts => TypeExpr.expect c ts >>= fun ts => reader depth ts) depth := by
  intro ts a left hread
  obtain ⟨ts', hexpect, hnext⟩ := exists_of_bind_eq_ok hread
  unfold TypeExpr.expect at hexpect
  split at hexpect
  · rename_i hat
    obtain ⟨t, rest, rfl, ht⟩ := exists_cons_of_at? hat
    cases hexpect
    obtain ⟨used, rfl, hle, htakes⟩ := h hnext
    refine ⟨t :: used, rfl, Nat.succ_le_succ hle, ?_, ?_⟩
    · exact List.forall_mem_cons.mpr ⟨by rw [ht]; exact proper_punct c, htakes.proper⟩
    · intro left' depth' hcut hdepth
      rw [List.length_cons] at hdepth
      have hat' : at? c (t :: used ++ left') = true := at?_cons.mpr ht
      simp only [TypeExpr.expect, hat', if_true]
      exact htakes.again hcut (by omega)
  · cases hexpect

/-! ## Unions, intersections and `[]` -/

theorem readAlternatives_stops :
    ∀ {depth : Nat} {ts : List Lexeme} {members : List TypeExpr} {left : List Lexeme},
    readAlternatives depth ts = .ok (members, left) → at? '|' left = false := by
  intro depth
  induction depth with
  | zero => intro ts members left h; cases h
  | succ depth ih =>
    intro ts members left h
    rw [readAlternatives] at h
    split at h
    · obtain ⟨⟨member, mid⟩, -, hrest⟩ := exists_of_bind_eq_ok h
      obtain ⟨⟨more, left'⟩, hmore, hresult⟩ := exists_of_bind_eq_ok hrest
      cases hresult
      exact ih hmore
    · rename_i hat
      cases h
      simpa using hat

/-- Behind a `|` there is a member to take. -/
theorem Local.alternatives (h : Local 1 0 readAlternatives depth) :
    LocalAt (· = .punct '|') 1 readAlternatives depth := by
  intro t ts members left ht hread
  have hstops := readAlternatives_stops hread
  obtain ⟨used, hused, -, htakes⟩ := h hread
  cases used with
  | nil =>
    rw [List.nil_append] at hused
    rw [← hused, at?_cons.mpr ht] at hstops
    cases hstops
  | cons t' used =>
    cases hused
    exact ⟨used, rfl, htakes⟩

theorem local_readUnion (hmember : Local 3 1 readIntersection depth)
    (hmore : Local 1 0 readAlternatives depth) :
    Local 4 1 readUnion (depth + 1) := by
  have hunion := fun first => hmore.alternatives.bind
    (fun more => local_pure (TypeExpr.union (first :: more)) _) (by decide)
  have hsingle :=
    fun first : TypeExpr => (local_pure first depth).mono (Nat.zero_le 1) (Nat.le_refl 0)
  exact (hmember.bind (fun first => (hunion first).ite_at (hsingle first) (by decide))
    (by decide)).succ fun _ _ => rfl

theorem local_readAlternatives (hmember : Local 3 1 readIntersection depth)
    (hmore : Local 1 0 readAlternatives depth) : Local 1 0 readAlternatives (depth + 1) := by
  have hmembers :=
    hmember.bind (fun member => hmore.bind (fun more => local_pure (member :: more) _) (by decide))
    (by decide)
  exact ((hmembers.after '|' 0 (by decide)).ite_at (local_pure [] _) (by decide)).succ
    fun _ _ => rfl

theorem local_readIntersection (hmember : Local 2 1 readPostfix depth)
    (hmore : Local 1 0 readConjuncts depth) :
    Local 3 1 readIntersection (depth + 1) := by
  have hmembers := hmember.bind (fun first => hmore.bind (fun more =>
    local_pure (if more.isEmpty then first else .inter (first :: more)) _) (by decide)) (by decide)
  exact hmembers.succ fun _ _ => rfl

/-- Behind an `&` that joins two types the second one is taken, so the `&` still joins them. -/
theorem Local.conjunct {reader : Reader α} (h : Local extra 1 reader depth)
    (hextra : extra ≤ extra' + 8) :
    LocalIf atIntersection true extra' 0 (fun depth ts => reader depth ts.tail) depth := by
  intro ts members left hat hread
  have hand := hat
  rw [atIntersection_eq, Bool.and_eq_true] at hand
  obtain ⟨t, rest, rfl, ht⟩ := exists_cons_of_at? hand.1
  obtain ⟨used, rfl, hle, htakes⟩ := h hread
  obtain ⟨u, used, rfl⟩ := List.exists_cons_of_length_pos hle
  exact ⟨t :: u :: used, rfl, Nat.zero_le _, htakes.tail (ht ▸ proper_punct '&') hextra,
    fun _ _ => hat⟩

theorem local_readConjuncts (hmember : Local 2 1 readPostfix depth)
    (hmore : Local 1 0 readConjuncts depth) :
    Local 1 0 readConjuncts (depth + 1) := by
  have hmembers :=
    hmember.bind (fun member => hmore.bind (fun more => local_pure (member :: more) _) (by decide))
    (by decide)
  have hstop : LocalIf atIntersection false 0 0
      (fun _ ts => .ok (([] : List TypeExpr), ts)) depth := by
    intro ts members left hat hread
    cases hread
    exact ⟨[], rfl, Nat.le_refl 0, ⟨by simp, fun _ _ => rfl⟩,
      fun left' hcut => hcut.atIntersection hat⟩
  exact (local_ite (hmembers.conjunct (by decide)) hstop).succ fun _ _ => rfl

/-- No `[]` appears where none was. -/
theorem Cut.brackets {ts' ts : List Lexeme} (h : Cut ts' ts) {t : TypeExpr}
    (hne : ∀ s e s' e' rest, ts = ⟨.punct '[', s, e⟩ :: ⟨.punct ']', s', e'⟩ :: rest → False) :
    readBrackets t ts' = (t, ts') := by
  refine readBrackets.eq_2 t ts' ?_
  rintro s e s' e' rest rfl
  cases h with
  | inside _ _ hmark _ => exact hmark '[' rfl
  | cons _ h =>
    cases h with
    | inside _ _ hmark _ => exact hmark ']' rfl
    | cons _ _ => exact hne _ _ _ _ _ rfl

theorem local_readBrackets (t : TypeExpr) :
    Local 0 0 (fun _ ts => .ok (readBrackets t ts)) depth := by
  intro ts a left hread
  replace hread : readBrackets t ts = (a, left) := Except.ok.inj hread
  fun_induction readBrackets t ts with
  | case1 t s e s' e' ts ih =>
    obtain ⟨used, rfl, -, htakes⟩ := ih hread
    refine ⟨⟨.punct '[', s, e⟩ :: ⟨.punct ']', s', e'⟩ :: used, rfl, Nat.zero_le _, ?_, ?_⟩
    · exact List.forall_mem_cons.mpr
        ⟨proper_punct _, List.forall_mem_cons.mpr ⟨proper_punct _, htakes.proper⟩⟩
    · intro left' depth' hcut hdepth
      simp only [List.length_cons] at hdepth
      exact htakes.again hcut (Nat.le_refl _)
  | case2 t ts hne =>
    cases hread
    exact ⟨[], rfl, Nat.le_refl 0, by simp, fun hcut _ => congrArg Except.ok (hcut.brackets hne)⟩

theorem local_readPostfix (hatom : Local 1 1 readAtom depth) : Local 2 1 readPostfix (depth + 1) :=
  (hatom.bind (fun t => local_readBrackets t) (by decide)).succ fun _ _ => rfl

/-! ## Atoms -/

theorem localAt_of_error {p : Token → Prop} {reader : Reader α}
    (h : ∀ t ts, p t.token → reader depth (t :: ts) = .error (unexpected (t :: ts))) :
    LocalAt p extra reader depth := by
  intro t ts a left hp hread
  rw [h t ts hp] at hread
  cases hread

/-- A reader that needs a token is local if it is so at every token. -/
theorem local_of_localAt {reader : Reader α} (hnil : reader depth [] = .error (unexpected []))
    (h : ∀ tok, LocalAt (· = tok) extra reader depth) : Local extra 1 reader depth := by
  intro ts a left hread
  cases ts with
  | nil => rw [hnil] at hread; cases hread
  | cons t ts =>
    obtain ⟨used, rfl, htakes⟩ := h t.token rfl hread
    exact ⟨t :: used, rfl, by simp, htakes⟩

/-- A token that is a type by itself. -/
theorem localAt_single {tok : Token} (htok : tok.Proper) (a : α) :
    LocalAt (· = tok) extra (fun _ ts => .ok (a, ts.tail)) depth :=
  (local_pure a depth).tail extra (by rintro _ rfl; exact htok) (Nat.zero_le _)

theorem local_readAtom (hsuffixed : Local 2 1 readPostfix depth)
    (hinner : Local 5 1 readParenthesized depth)
    (hnamed : ∀ base, Local 1 0 (fun depth ts => readNamed depth base ts) depth) :
    Local 1 1 readAtom (depth + 1) := by
  suffices hbody : Local 0 1 (fun depth ts => readAtom (depth + 1) ts) depth
      from hbody.succ fun _ _ => rfl
  have hnullable :=
    hsuffixed.bind (fun inner => local_pure (TypeExpr.nullable inner) _) (by decide)
  refine local_of_localAt rfl fun tok => ?_
  cases tok with
  | punct c =>
    by_cases hquestion : c = '?'
    · subst hquestion
      refine (hnullable.after '?' 0 (by decide)).congr fun depth t ts ht => ?_
      simp only [readAtom, peek, List.head?_cons, Option.map_some, ht]
      rfl
    by_cases hparen : c = '('
    · subst hparen
      refine (hinner.after '(' 0 (by decide)).congr fun depth t ts ht => ?_
      simp only [readAtom, peek, List.head?_cons, Option.map_some, ht]
    by_cases hstar : c = '*'
    · subst hstar
      refine (localAt_single (proper_punct '*') (TypeExpr.name "mixed")).congr
        fun depth t ts ht => ?_
      simp only [readAtom, peek, List.head?_cons, Option.map_some, ht]
    · refine localAt_of_error fun t ts ht => ?_
      simp [readAtom, peek, ht, hquestion, hparen, hstar]
  | quoted text =>
    refine (localAt_single (by nofun) (TypeExpr.literal (.text text))).congr
      fun depth t ts ht => ?_
    simp only [readAtom, peek, List.head?_cons, Option.map_some, ht]
  | number text =>
    refine (localAt_single (by nofun) (numberLiteral text)).congr fun depth t ts ht => ?_
    simp only [readAtom, peek, List.head?_cons, Option.map_some, ht]
  | «variable» text =>
    by_cases hthis : text = "$this"
    · subst hthis
      refine (localAt_single (by nofun) (TypeExpr.name "$this")).congr fun depth t ts ht => ?_
      simp only [readAtom, peek, List.head?_cons, Option.map_some, ht]
    · refine localAt_of_error fun t ts ht => ?_
      simp [readAtom, peek, ht, hthis]
  | ident text =>
    refine ((hnamed text).tail 0 (by rintro _ rfl; nofun) (by decide)).congr
      fun depth t ts ht => ?_
    simp only [readAtom, peek, List.head?_cons, Option.map_some, ht]
  | ellipsis => exact localAt_of_error fun t ts ht => by simp [readAtom, peek, ht]
  | other c => exact localAt_of_error fun t ts ht => by simp [readAtom, peek, ht]

theorem local_readNamed (hparams : Local 1 1 readParams depth)
    (hfields : Local 1 1 readFields depth) (hsignature : Local 1 1 readCallableParams depth)
    (hsuffixed : Local 2 1 readPostfix depth) (base : String) :
    Local 1 0 (fun depth ts => readNamed depth base ts) (depth + 1) := by
  have hname : Local 0 0 (fun _ ts => .ok (TypeExpr.name base, ts)) depth := local_pure _ _
  have hgeneric :=
    hparams.bind (fun params => local_pure (TypeExpr.generic base params) _) (by decide)
  have hshape := hfields.bind (fun fields => local_pure (TypeExpr.shape base fields) _) (by decide)
  have hresult := fun params => hsuffixed.bind
    (fun result => local_pure (TypeExpr.callable base params (some result)) _) (by decide)
  have hcallable := hsignature.bind (fun params =>
    ((hresult params).after ':' 0 (by decide)).ite_at
      (local_pure (TypeExpr.callable base params none) _) (by decide)) (by decide)
  have hparen :=
    (hcallable.after '(' 0 (by decide)).ite_at_and hname (by decide)
      (callableBases.contains (lower base))
  have hbrace :=
    (hshape.after '\x7b' 0 (by decide)).ite_at_and hparen (by decide)
      (shapeBases.contains (lower base))
  exact ((hgeneric.after '<' 0 (by decide)).ite_at hbrace (by decide)).succ fun _ _ => rfl

/-- The token is the name `word` in some letter case. -/
def IsWord (word : String) (tok : Token) : Prop :=
  ∃ text, tok = .ident text ∧ sameName text word = true

theorem IsWord.proper {word : String} {tok : Token} (h : IsWord word tok) : tok.Proper := by
  obtain ⟨text, rfl, -⟩ := h
  nofun

theorem atWord_iff (word : String) (ts : List Lexeme) :
    atWord word ts = true ↔ ∃ t rest, ts = t :: rest ∧ IsWord word t.token := by
  constructor
  · intro h
    unfold atWord at h
    split at h
    · rename_i text hpeek
      cases ts with
      | nil => cases hpeek
      | cons t rest => exact ⟨t, rest, rfl, text, Option.some.inj hpeek, h⟩
    · cases h
  · rintro ⟨t, rest, rfl, text, ht, hsame⟩
    simpa [atWord, peek, ht] using hsame

theorem localAt_readConditional (hunion : Local 4 1 readUnion depth) :
    LocalAt (IsWord "is") 1 readConditional (depth + 1) := by
  have hend := fun yes no => (local_pure (TypeExpr.conditional yes no) depth).expect ')'
  have hno := fun yes => (hunion.bind (fun no => hend yes no) (by decide)).expect ':'
  have hyes := (hunion.bind (fun yes => hno yes) (by decide)).expect '?'
  have htest := hunion.bind (fun _ => hyes) (by decide)
  have hnot := (htest.tail (p := IsWord "not") 4 (fun _ h => h.proper) (by decide)).ite
    (atWord "not") (htest.mono (Nat.le_refl 4) (Nat.le_add_right 1 _)) (by decide)
    (atWord_iff "not") (by simp)
  refine (hnot.tail 0 (fun _ h => h.proper) (by decide)).succ fun depth ts => ?_
  rw [readConditional]
  split
  · rfl
  · rfl

/-- A conditional type on a parameter starts with the parameter and `is`. -/
def startsConditional (ts : List Lexeme) : Bool :=
  match peek ts, atWord "is" ts.tail with
  | some (.variable _), true => true
  | _, _ => false

theorem exists_of_startsConditional {ts : List Lexeme} (h : startsConditional ts = true) :
    ∃ t is rest, ts = t :: is :: rest ∧ t.token.Proper ∧ IsWord "is" is.token := by
  unfold startsConditional at h
  split at h
  · rename_i name hpeek hword
    cases ts with
    | nil => cases hpeek
    | cons t ts =>
      obtain ⟨is, rest, rfl, his⟩ := (atWord_iff "is" ts).mp hword
      have ht : t.token = .variable name := Option.some.inj hpeek
      exact ⟨t, is, rest, rfl, by rw [ht]; nofun, his⟩
  · cases h

theorem readParenthesized_succ (depth : Nat) (ts : List Lexeme) :
    readParenthesized (depth + 1) ts =
      if startsConditional ts then readConditional depth ts.tail else
        readUnion depth ts >>= fun r =>
          if atWord "is" r.2 then readConditional depth r.2
          else expect ')' r.2 >>= fun ts => .ok (r.1, ts) := by
  rw [readParenthesized]
  unfold startsConditional
  rcases peek ts with _ | tok
  · rfl
  · cases tok <;> cases atWord "is" ts.tail <;> rfl

/-- A reader that takes two tokens leaves a choice as it is that looks no further. -/
theorem Local.localIf {reader : Reader α} {cond : List Lexeme → Bool}
    (h : Local extra 2 reader depth) (value : Bool)
    (hcond : ∀ t u rest rest', cond (t :: u :: rest) = cond (t :: u :: rest')) :
    LocalIf cond value extra 1 reader depth := by
  intro ts a left hc hread
  obtain ⟨used, rfl, hle, htakes⟩ := h hread
  match used with
  | [] => simp at hle
  | [t] => simp at hle
  | t :: u :: used => exact ⟨_, rfl, by simp, htakes, fun _ _ => (hcond t u _ _).trans hc⟩

theorem local_readParenthesized (hunion : Local 4 1 readUnion depth)
    (hconditional : LocalAt (IsWord "is") 1 readConditional depth) :
    Local 5 1 readParenthesized (depth + 1) := by
  have hclose := fun inner : TypeExpr => ((local_pure inner depth).expect ')').mono (Nat.zero_le 1)
    (Nat.le_refl 1)
  have hinner := hunion.bind (fun inner =>
    hconditional.ite (atWord "is") (hclose inner) (by decide) (atWord_iff "is") (by simp))
    (by decide)
  have hsubject : LocalIf startsConditional true 4 1
      (fun depth ts => readConditional depth ts.tail) depth := by
    intro ts a left hc hread
    obtain ⟨t, is, rest, rfl, ht, his⟩ := exists_of_startsConditional hc
    obtain ⟨used, rfl, htakes⟩ := hconditional his hread
    exact ⟨t :: is :: used, rfl,
      by simp, (htakes.tail ht (by decide)).mono (Nat.zero_le 4), fun _ _ => hc⟩
  exact (local_ite hsubject (hinner.localIf false fun _ _ _ _ => rfl)).succ readParenthesized_succ

/-! ## Lists in brackets -/

/-- One item of a list, behind which stands another token: the item is taken, and again if the
tokens behind that one are cut off. -/
def LocalItem (extra : Nat) (item : Reader α) (depth : Nat) : Prop :=
  ∀ ⦃ts : List Lexeme⦄ ⦃x : α⦄ ⦃mark : Lexeme⦄ ⦃rest : List Lexeme⦄,
    item depth ts = .ok (x, mark :: rest) →
    ∃ used, ts = used ++ mark :: rest ∧ (∀ t ∈ used, t.token.Proper) ∧
      ∀ {rest' : List Lexeme} {depth : Nat}, Cut rest' rest → 8 * used.length + extra ≤ depth →
        item depth (used ++ mark :: rest') = .ok (x, mark :: rest')

theorem Local.item {item : Reader α} (h : Local extra least item depth) :
    LocalItem extra item depth := by
  intro ts x mark rest hread
  obtain ⟨used, hused, -, htakes⟩ := h hread
  exact ⟨used, hused, htakes.proper, fun hcut hdepth => htakes.again (.cons mark hcut) hdepth⟩

/-- An item, and behind a comma the rest of the list, or else the closing bracket. -/
def itemAndRest (closing : Char) (item : Reader α) (rest : Reader (List α)) : Reader (List α) :=
  fun depth ts => do
  let (x, ts) ← item depth ts
  if at? ',' ts then
    let (more, ts) ← rest depth ts.tail
    return (x :: more, ts)
  else
    let ts ← expect closing ts
    return ([x], ts)

theorem LocalItem.list {item : Reader α} {rest : Reader (List α)} (hitem : LocalItem 5 item depth)
    (hrest : Local 1 1 rest depth) (closing : Char) :
    Local 0 1 (itemAndRest closing item rest) depth := by
  have hmore := fun x => hrest.bind (fun more => local_pure (x :: more) _) (by decide)
  have hnext := fun x => ((hmore x).after ',' 0 (by decide)).ite_at
    ((local_pure [x] _).expect closing) (by decide)
  intro ts xs left hread
  obtain ⟨⟨x, mid⟩, hx, hread'⟩ := exists_of_bind_eq_ok hread
  obtain ⟨more, rfl, hle, htakes⟩ := hnext x hread'
  -- what follows the item is taken, so one token at least is there
  obtain ⟨mark, more, rfl⟩ := List.exists_cons_of_length_pos hle
  obtain ⟨used, rfl, hproper, hagain⟩ := hitem hx
  refine ⟨used ++ mark :: more, by simp, by rw [List.length_append]; omega, ?_, ?_⟩
  · exact List.forall_mem_append.mpr ⟨hproper, htakes.proper⟩
  · intro left' depth' hcut hdepth
    rw [List.length_append, List.length_cons] at hdepth
    unfold itemAndRest
    rw [List.append_assoc, List.cons_append, hagain (hcut.append more) (by omega)]
    exact htakes.again hcut (by rw [List.length_cons]; omega)

/-- A word for the variance of a type parameter, behind which the parameter follows. -/
def SkipsVariance (t : Lexeme) (ts : List Lexeme) : Prop :=
  (t.token = .ident "covariant" ∨ t.token = .ident "contravariant") ∧ at? ',' ts = false ∧
    at? '>' ts = false

theorem SkipsVariance.dropVariance_eq {t : Lexeme} {ts : List Lexeme} (h : SkipsVariance t ts) :
    dropVariance (t :: ts) = ts := by
  have hpeek : peek (t :: ts) = some t.token := rfl
  obtain ⟨ht, hcomma, hclose⟩ := h
  simp only [at?, beq_eq_false_iff_ne] at hcomma hclose
  unfold dropVariance peekSecond
  rw [hpeek, List.tail_cons]
  rcases ht with ht | ht
  · rw [ht]
    split <;> simp_all
  · rw [ht]
    split <;> simp_all

theorem dropVariance_of_not_skips {t : Lexeme} {ts : List Lexeme} (h : ¬ SkipsVariance t ts) :
    dropVariance (t :: ts) = t :: ts := by
  have hpeek : peek (t :: ts) = some t.token := rfl
  simp only [SkipsVariance, at?, beq_eq_false_iff_ne] at h
  unfold dropVariance peekSecond
  rw [hpeek, List.tail_cons]
  split <;> simp_all

theorem at?_append_cons (c : Char) (used : List Lexeme) (mark : Lexeme)
    (rest rest' : List Lexeme) :
    at? c (used ++ mark :: rest) = at? c (used ++ mark :: rest') := by
  cases used <;> rfl

theorem skipsVariance_append_cons {t mark : Lexeme} {used rest : List Lexeme}
    (rest' : List Lexeme) :
    SkipsVariance t (used ++ mark :: rest) ↔ SkipsVariance t (used ++ mark :: rest') := by
  unfold SkipsVariance
  rw [at?_append_cons ',' used mark rest rest', at?_append_cons '>' used mark rest rest']

theorem localItem_param (hunion : Local 4 1 readUnion depth) :
    LocalItem 5 (fun depth ts => readUnion depth (dropVariance ts)) depth := by
  intro ts x mark rest hread
  dsimp only at hread ⊢
  cases ts with
  | nil =>
    obtain ⟨used, hused, -⟩ := hunion hread
    cases used <;> cases hused
  | cons t ts =>
    by_cases hskips : SkipsVariance t ts
    · rw [hskips.dropVariance_eq] at hread
      obtain ⟨used, rfl, -, htakes⟩ := hunion hread
      have ht : t.token.Proper := by rcases hskips.1 with h | h <;> rw [h] <;> nofun
      refine ⟨t :: used, rfl, List.forall_mem_cons.mpr ⟨ht, htakes.proper⟩, ?_⟩
      intro rest' depth' hcut hdepth
      rw [List.length_cons] at hdepth
      rw [List.cons_append, ((skipsVariance_append_cons rest').mp hskips).dropVariance_eq]
      exact htakes.again (.cons mark hcut) (by omega)
    · rw [dropVariance_of_not_skips hskips] at hread
      obtain ⟨used, hused, hle, htakes⟩ := hunion hread
      obtain ⟨t', used, rfl⟩ := List.exists_cons_of_length_pos hle
      cases hused
      refine ⟨t :: used, rfl, htakes.proper, ?_⟩
      intro rest' depth' hcut hdepth
      rw [List.cons_append,
        dropVariance_of_not_skips (mt (skipsVariance_append_cons rest').mpr hskips)]
      exact htakes.again (.cons mark hcut) (by omega)

theorem local_readParams (hunion : Local 4 1 readUnion depth)
    (hmore : Local 1 1 readParams depth) :
    Local 1 1 readParams (depth + 1) := by
  have hempty := (local_pure ([] : List TypeExpr) depth).after '>' 0 (Nat.zero_le _)
  exact (hempty.ite_at ((localItem_param hunion).list hmore '>') (by decide)).succ fun _ _ => rfl

/-! ## Marks of a callable's parameter -/

/-- Tokens are dropped from the front up to one that stays, whatever is behind that one. -/
def Drops (drop : List Lexeme → List Lexeme) : Prop :=
  ∀ ⦃ts : List Lexeme⦄ ⦃mark : Lexeme⦄ ⦃rest : List Lexeme⦄, drop ts = mark :: rest →
    ∃ dropped, ts = dropped ++ mark :: rest ∧ (∀ t ∈ dropped, t.token.Proper) ∧
      ∀ rest', drop (dropped ++ mark :: rest') = mark :: rest'

theorem drops_first {drop : List Lexeme → List Lexeme} {p : Token → Prop}
    (hp : ∀ tok, p tok → tok.Proper) (hnil : drop [] = [])
    (hyes : ∀ t ts, p t.token → drop (t :: ts) = ts)
    (hno : ∀ t ts, ¬ p t.token → drop (t :: ts) = t :: ts) : Drops drop := by
  intro ts mark rest hdrop
  cases ts with
  | nil => rw [hnil] at hdrop; cases hdrop
  | cons t ts =>
    by_cases ht : p t.token
    · rw [hyes t ts ht] at hdrop
      subst hdrop
      exact ⟨[t], rfl, by simpa using hp _ ht, fun rest' => hyes t _ ht⟩
    · rw [hno t ts ht] at hdrop
      obtain ⟨rfl, rfl⟩ := List.cons.inj hdrop
      exact ⟨[], rfl, by simp, fun rest' => hno t rest' ht⟩

theorem Drops.comp {drop drop' : List Lexeme → List Lexeme} (h : Drops drop) (h' : Drops drop') :
    Drops fun ts => drop' (drop ts) := by
  intro ts mark rest hdrop
  obtain ⟨later, hlater, hproper', hagain'⟩ := h' hdrop
  cases later with
  | nil =>
    obtain ⟨first, hfirst, hproper, hagain⟩ := h hlater
    exact ⟨first, hfirst, hproper,
      fun rest' => (congrArg drop' (hagain rest')).trans (hagain' rest')⟩
  | cons t later =>
    obtain ⟨first, hfirst, hproper, hagain⟩ := h hlater
    refine ⟨first ++ t :: later,
      by rw [hfirst]; simp, List.forall_mem_append.mpr ⟨hproper, hproper'⟩, fun rest' => ?_⟩
    rw [List.append_assoc, List.cons_append]
    exact (congrArg drop' (hagain _)).trans (hagain' rest')

theorem drops_dropPunct (c : Char) : Drops (dropPunct c) := by
  refine drops_first (p := (· = .punct c)) (by rintro _ rfl; exact proper_punct c) rfl
    (fun t ts ht => ?_) fun t ts ht => ?_
  · rw [dropPunct, if_pos (at?_cons.mpr ht), List.tail_cons]
  · rw [dropPunct, if_neg (fun hat => ht (at?_cons.mp hat))]

/-- A parameter's name, if there is one. -/
def dropVariable (ts : List Lexeme) : List Lexeme :=
  match peek ts with
  | some (.variable _) => ts.tail
  | _ => ts

theorem drops_dropVariable : Drops dropVariable := by
  refine drops_first (p := fun tok => ∃ name, tok = .variable name) ?_ rfl (fun t ts ht => ?_)
    fun t ts ht => ?_
  · rintro _ ⟨name, rfl⟩ c
    exact Token.noConfusion
  · obtain ⟨name, ht⟩ := ht
    simp [dropVariable, peek, ht]
  · simp only [dropVariable, peek, List.head?_cons, Option.map_some]
    split
    · rename_i name hname
      exact absurd ⟨name, Option.some.inj hname⟩ ht
    · rfl

theorem drops_dropParameterMarks : Drops dropParameterMarks := by
  have hellipsis : Drops fun ts => if peek ts == some .ellipsis then ts.tail else ts := by
    refine drops_first (p := (· = .ellipsis)) (by rintro _ rfl; nofun) rfl (fun t ts ht => ?_)
      fun t ts ht => ?_
    · simp [peek, ht]
    · simp [peek, ht]
  exact (((drops_dropPunct '&').comp hellipsis).comp drops_dropVariable).comp (drops_dropPunct '=')

theorem localItem_callableParam (hunion : Local 4 1 readUnion depth) :
    LocalItem 5
      (fun depth ts => readUnion depth ts >>= fun r => .ok (r.1, dropParameterMarks r.2))
      depth := by
  intro ts x mark rest hread
  obtain ⟨⟨t, mid⟩, ht, hresult⟩ := exists_of_bind_eq_ok hread
  obtain ⟨rfl, hdrop⟩ := Prod.mk.inj (Except.ok.inj hresult)
  obtain ⟨dropped, rfl, hproper, hagain⟩ := drops_dropParameterMarks hdrop
  obtain ⟨used, rfl, -, htakes⟩ := hunion ht
  refine ⟨used ++ dropped, (List.append_assoc _ _ _).symm,
    List.forall_mem_append.mpr ⟨htakes.proper, hproper⟩, ?_⟩
  intro rest' depth' hcut hdepth
  rw [List.length_append] at hdepth
  have hcut' : Cut (dropped ++ mark :: rest') (dropped ++ mark :: rest) :=
    Cut.append (.cons mark hcut) dropped
  dsimp only
  rw [List.append_assoc, htakes.again hcut' (by omega)]
  exact congrArg (fun ts => Except.ok (t, ts)) (hagain rest')

theorem local_readCallableParams (hunion : Local 4 1 readUnion depth)
    (hmore : Local 1 1 readCallableParams depth) :
    Local 1 1 readCallableParams (depth + 1) := by
  have hempty := (local_pure ([] : List TypeExpr) depth).after ')' 0 (Nat.zero_le _)
  refine (hempty.ite_at ((localItem_callableParam hunion).list hmore ')') (by decide)).succ
    fun depth ts => ?_
  rw [readCallableParams, itemAndRest]
  split
  · rfl
  · cases readUnion depth ts <;> rfl

/-! ## Fields of a shape -/

/-- A colon follows, or a question mark and a colon. -/
def atColon (ts : List Lexeme) : Bool := at? ':' ts || (at? '?' ts && at? ':' ts.tail)

/-- The key that a token can be. -/
def keyText? : Token → Option String
  | .ident text | .number text => some text
  | .quoted text => some (stripText (fun c => c == '\'' || c == '"') text)
  | _ => none

theorem fieldKey?_cons (t : Lexeme) (ts : List Lexeme) :
    fieldKey? (t :: ts) = if atColon ts then keyText? t.token else none := by
  have hpeek : peek (t :: ts) = some t.token := rfl
  have hmarked : (peekSecond (t :: ts) == some (.punct ':')
      || (peekSecond (t :: ts) == some (.punct '?') && peekThird (t :: ts) == some (.punct ':'))) =
        atColon ts := rfl
  unfold fieldKey?
  rw [hpeek, hmarked]
  cases t.token <;> cases atColon ts <;> rfl

theorem Cut.atColon {ts' ts : List Lexeme} (h : Cut ts' ts) (hcolon : atColon ts = false) :
    atColon ts' = false := by
  simp only [TypeExpr.atColon, Bool.or_eq_false_iff, Bool.and_eq_false_iff] at hcolon ⊢
  refine ⟨h.at? hcolon.1, ?_⟩
  cases h with
  | nil => exact Or.inl rfl
  | inside ts' ts hmark _ => exact Or.inl (at?_cons_of_ne ts' (hmark '?'))
  | cons t h => exact hcolon.2.imp_right h.at?

theorem Cut.fieldKey? {ts' ts : List Lexeme} (h : Cut ts' ts) {t : Lexeme}
    (hkey : fieldKey? (t :: ts) = none) :
    fieldKey? (t :: ts') = none := by
  rw [fieldKey?_cons] at hkey ⊢
  cases hcolon : TypeExpr.atColon ts with
  | true =>
    rw [if_pos hcolon] at hkey
    rw [hkey, ite_self]
  | false => rw [if_neg (by simp [h.atColon hcolon])]

/-- The front of a field that has a key: the key, perhaps a question mark, and the colon. -/
theorem exists_of_fieldKey? {ts : List Lexeme} {key : String} (h : fieldKey? ts = some key) :
    ∃ label rest optional, ts = label ++ rest ∧ (∀ t ∈ label, t.token.Proper) ∧ ∀ depth rest',
      readField (depth + 1) (label ++ rest') =
        readUnion depth rest' >>= fun r => .ok (.mk (some key) optional r.1, r.2) := by
  cases ts with
  | nil => simp [TypeExpr.fieldKey?, peek] at h
  | cons t ts =>
    rw [fieldKey?_cons] at h
    split at h
    · rename_i hcolon
      have ht : t.token.Proper := by
        intro c hc
        rw [hc] at h
        cases h
      simp only [atColon, Bool.or_eq_true, Bool.and_eq_true] at hcolon
      rcases hcolon with hcolon | ⟨hquestion, hcolon⟩
      · obtain ⟨colon, rest, rfl, hc⟩ := exists_cons_of_at? hcolon
        refine ⟨[t, colon], rest, false, rfl, ?_, fun depth rest' => ?_⟩
        · simpa [hc] using ⟨ht, proper_punct ':'⟩
        · have hkey : TypeExpr.fieldKey? (t :: colon :: rest') = some key := by
            rw [fieldKey?_cons, if_pos (by simp [atColon, at?_cons.mpr hc]), h]
          have hnot : at? '?' (colon :: rest') = false := at?_cons_of_ne rest' (by rw [hc]; decide)
          simp only [List.cons_append, List.nil_append, readField, hkey, List.tail_cons, hnot,
            dropPunct, expect, at?_cons.mpr hc, if_true, Bool.false_eq_true, if_false]
          rfl
      · obtain ⟨question, rest, rfl, hq⟩ := exists_cons_of_at? hquestion
        obtain ⟨colon, rest, rfl, hc⟩ := exists_cons_of_at? hcolon
        refine ⟨[t, question, colon], rest, true, rfl, ?_, fun depth rest' => ?_⟩
        · simpa [hq, hc] using ⟨ht, proper_punct '?', proper_punct ':'⟩
        · have hkey : TypeExpr.fieldKey? (t :: question :: colon :: rest') = some key := by
            rw [fieldKey?_cons, if_pos (by simp [atColon, at?_cons.mpr hq, at?_cons.mpr hc]), h]
          simp only [List.cons_append, List.nil_append, readField, hkey, List.tail_cons,
            dropPunct, expect, at?_cons.mpr hc, at?_cons.mpr hq, if_true]
          rfl
    · cases h

theorem local_readField (hunion : Local 4 1 readUnion depth) :
    Local 5 1 readField (depth + 1) := by
  suffices hbody : Local 4 1 (fun depth ts => readField (depth + 1) ts) depth
      from hbody.succ fun _ _ => rfl
  intro ts field left hread
  dsimp only at hread
  cases hkey : fieldKey? ts with
  | none =>
    have hvalue :=
      hunion.bind (fun value => local_pure (ShapeField.mk none false value) _) (by decide)
    rw [readField, hkey] at hread
    obtain ⟨used, rfl, hle, htakes⟩ := hvalue hread
    obtain ⟨t, used, rfl⟩ := List.exists_cons_of_length_pos hle
    refine ⟨t :: used, rfl, hle, htakes.proper, ?_⟩
    intro left' depth' hcut hdepth
    have hkey' : fieldKey? (t :: used ++ left') = none := (hcut.append used).fieldKey? hkey
    rw [readField, hkey']
    exact htakes.again hcut hdepth
  | some key =>
    obtain ⟨label, rest, optional, rfl, hproper, hfield⟩ := exists_of_fieldKey? hkey
    have hvalue :=
      hunion.bind (fun value => local_pure (ShapeField.mk (some key) optional value) _) (by decide)
    rw [hfield] at hread
    obtain ⟨used, rfl, hle, htakes⟩ := hvalue hread
    refine ⟨label ++ used, (List.append_assoc _ _ _).symm,
      by rw [List.length_append]; omega, ?_, ?_⟩
    · exact List.forall_mem_append.mpr ⟨hproper, htakes.proper⟩
    · intro left' depth' hcut hdepth
      rw [List.length_append] at hdepth
      rw [List.append_assoc, hfield]
      exact htakes.again hcut (by omega)

theorem local_readFields (hfield : Local 5 1 readField depth)
    (hmore : Local 1 1 readFields depth) :
    Local 1 1 readFields (depth + 1) := by
  have hempty := (local_pure ([] : List ShapeField) depth).after '\x7d' 0 (Nat.zero_le _)
  have hopen :=
    ((local_pure ([] : List ShapeField) depth).expect '\x7d').tail (p := (· = .ellipsis)) 0
    (by rintro _ rfl; nofun) (Nat.zero_le _)
  have hfields :=
    hopen.ite (fun ts => peek ts == some .ellipsis) (hfield.item.list hmore '\x7d') (by decide)
    (fun ts => by cases ts <;> simp [peek]) (by simp)
  exact (hempty.ite_at hfields (by decide)).succ fun _ _ => rfl

/-! ## All readers -/

/-- All readers of types are local at a depth. -/
structure LocalReaders (depth : Nat) : Prop where
  union : Local 4 1 readUnion depth
  alternatives : Local 1 0 readAlternatives depth
  intersection : Local 3 1 readIntersection depth
  conjuncts : Local 1 0 readConjuncts depth
  suffixed : Local 2 1 readPostfix depth
  atom : Local 1 1 readAtom depth
  named : ∀ base, Local 1 0 (fun depth ts => readNamed depth base ts) depth
  parenthesized : Local 5 1 readParenthesized depth
  conditional : LocalAt (IsWord "is") 1 readConditional depth
  params : Local 1 1 readParams depth
  fields : Local 1 1 readFields depth
  field : Local 5 1 readField depth
  callableParams : Local 1 1 readCallableParams depth

theorem localReaders (depth : Nat) : LocalReaders depth := by
  induction depth with
  | zero =>
    refine ⟨local_zero fun _ => rfl, local_zero fun _ => rfl, local_zero fun _ => rfl,
      local_zero fun _ => rfl, local_zero fun _ => rfl, local_zero fun _ => rfl,
      fun _ => local_zero fun _ => rfl, local_zero fun _ => rfl,
      localAt_of_error fun _ _ _ => rfl, local_zero fun _ => rfl, local_zero fun _ => rfl,
      local_zero fun _ => rfl, local_zero fun _ => rfl⟩
  | succ depth ih =>
    exact {
      union := local_readUnion ih.intersection ih.alternatives
      alternatives := local_readAlternatives ih.intersection ih.alternatives
      intersection := local_readIntersection ih.suffixed ih.conjuncts
      conjuncts := local_readConjuncts ih.suffixed ih.conjuncts
      suffixed := local_readPostfix ih.atom
      atom := local_readAtom ih.suffixed ih.parenthesized ih.named
      named := local_readNamed ih.params ih.fields ih.callableParams ih.suffixed
      parenthesized := local_readParenthesized ih.union ih.conditional
      conditional := localAt_readConditional ih.union
      params := local_readParams ih.union ih.params
      fields := local_readFields ih.field ih.fields
      field := local_readField ih.union
      callableParams := local_readCallableParams ih.union ih.callableParams }

end ClassDocs.TypeExpr

import ClassDocs.Proofs.CanonicalType
import ClassDocs.Proofs.TypePositions

/-!
# Reading back the text of a type

Each level of the reader takes exactly the tokens of the types that are written at that level: the
reader of unions those of every canonical type, the reader of intersections those of a type that is
no union, and the reader of postfix types those of a type that is no intersection either. What
stands behind the type decides where a level stops, so each level has its own marks that may
follow.

The induction goes over the canonical types. A type in brackets or in a list is read by the reader
of unions, and there the bound on the depth of calls has become smaller by at most seven while at
least one token is used up.
-/

namespace ClassDocs.TypeExpr

open ClassDocs.Text

/-! ## What follows a type -/

/-- The next token, if there is one, is one of the marks. -/
def Follows (marks : List Char) (toks : List Token) : Prop :=
  ∀ tok ∈ toks.head?, ∃ c ∈ marks, tok = .punct c

/-- The marks behind a type that stands in brackets or in a list. -/
def closers : List Char := [')', '>', '\x7d', ',']

/-- The marks behind a member of a union. -/
def afterMember : List Char := '|' :: closers

/-- The marks behind a member of an intersection. -/
def afterOperand : List Char := '&' :: afterMember

/-- The marks behind a type that `[]` may follow. -/
def afterAtom : List Char := '[' :: afterOperand

theorem follows_nil (marks : List Char) : Follows marks [] := nofun

theorem follows_cons {marks : List Char} {c : Char} (hc : c ∈ marks) (toks : List Token) :
    Follows marks (.punct c :: toks) := by
  intro tok htok
  obtain rfl : Token.punct c = tok := by simpa using htok
  exact ⟨c, hc, rfl⟩

theorem Follows.mono {marks marks' : List Char} {toks : List Token} (h : Follows marks toks)
    (hsub : marks ⊆ marks') :
    Follows marks' toks := by
  intro tok htok
  obtain ⟨c, hc, heq⟩ := h tok htok
  exact ⟨c, hsub hc, heq⟩

/-- Behind a part of a list stands the next separator or what follows the list. -/
theorem Follows.separated {marks : List Char} {c : Char} {rest : List Token}
    (h : Follows marks rest) (parts : List (List Token)) :
    Follows (c :: marks) (parts.flatMap (Token.punct c :: ·) ++ rest) := by
  cases parts with
  | nil => exact h.mono (List.subset_cons_self _ _)
  | cons part parts => exact follows_cons List.mem_cons_self _

theorem Follows.marked {marks : List Char} {toks : List Token} (h : Follows marks toks)
    (hcolon : ':' ∉ marks) (hquestion : '?' ∉ marks) : Marked toks := by
  intro tok htok
  obtain ⟨c, hc, heq⟩ := h tok htok
  refine ⟨c, heq, ?_, ?_⟩
  · rintro rfl
    exact hcolon hc
  · rintro rfl
    exact hquestion hc

theorem peek_eq (ls : List Lexeme) : peek ls = (ls.map Lexeme.token).head? := by
  rw [peek, List.head?_map]

theorem peek_of_cons {ls : List Lexeme} {tok : Token} {toks : List Token}
    (h : ls.map Lexeme.token = tok :: toks) :
    peek ls = some tok := by
  rw [peek_eq, h, List.head?_cons]

theorem map_tail_of_cons {ls : List Lexeme} {tok : Token} {toks : List Token}
    (h : ls.map Lexeme.token = tok :: toks) : ls.tail.map Lexeme.token = toks := by
  rw [List.map_tail, h, List.tail_cons]

theorem at?_of_cons {ls : List Lexeme} {c : Char} {toks : List Token}
    (h : ls.map Lexeme.token = .punct c :: toks) :
    at? c ls = true := by
  rw [at?, peek_of_cons h, beq_self_eq_true]

theorem at?_eq_false {ls : List Lexeme} {c : Char} {tok : Token} {toks : List Token}
    (h : ls.map Lexeme.token = tok :: toks) (hne : tok ≠ .punct c) : at? c ls = false := by
  rw [at?, peek_of_cons h]
  simpa using hne

theorem Follows.at?_eq_false {marks : List Char} {ls : List Lexeme} {c : Char} {toks : List Token}
    (h : Follows marks toks) (hls : ls.map Lexeme.token = toks) (hc : c ∉ marks) :
    at? c ls = false := by
  cases toks with
  | nil => rw [at?, peek_eq, hls]; rfl
  | cons tok toks =>
    refine TypeExpr.at?_eq_false hls ?_
    rintro rfl
    obtain ⟨d, hd, heq⟩ := h _ rfl
    obtain rfl := Token.punct.inj heq
    exact hc hd

theorem expect_of_cons {ls : List Lexeme} {c : Char} {toks : List Token}
    (h : ls.map Lexeme.token = .punct c :: toks) :
    expect c ls = .ok ls.tail := by
  rw [expect, if_pos (at?_of_cons h)]

/-! ## The levels of the reader -/

/-- The reader takes the tokens `toks` off the front and gives `a`, if `rest` follows them. -/
def Reads {α : Type} (reader : List Lexeme → Except TypeError (α × List Lexeme))
    (toks : List Token) (a : α) (rest : List Token) : Prop :=
  ∀ ⦃ls : List Lexeme⦄, ls.map Lexeme.token = toks ++ rest →
    ∃ left, reader ls = .ok (a, left) ∧ left.map Lexeme.token = rest

/-- The type is read by the reader of atoms, up to the brackets behind it, which are left for
`readBrackets`. -/
def ReadsOperand (t : TypeExpr) : Prop :=
  ∀ (depth : Nat) ⦃rest : List Token⦄ ⦃ls : List Lexeme⦄, 8 * t.tokens.length ≤ depth + 3 →
    Follows (if t.isOpenEnded then afterOperand else afterAtom) rest →
      ls.map Lexeme.token = t.tokens ++ rest →
    ∃ u left left', readAtom depth ls = .ok (u, left) ∧
      readBrackets u left = readBrackets t left' ∧ left'.map Lexeme.token = rest

def ReadsPostfix (t : TypeExpr) : Prop :=
  ∀ (depth : Nat) ⦃rest : List Token⦄, 8 * t.tokens.length ≤ depth + 2 →
    Follows afterOperand rest → Reads (readPostfix depth) t.tokens t rest

/-- The tokens of a member of a union, which need not be those of its text, are read as the
type. -/
def ReadsMember (toks : List Token) (t : TypeExpr) : Prop :=
  ∀ (depth : Nat) ⦃rest : List Token⦄, 8 * toks.length ≤ depth + 1 → Follows afterMember rest →
    Reads (readIntersection depth) toks t rest

def ReadsIntersection (t : TypeExpr) : Prop := ReadsMember t.tokens t

def ReadsUnion (t : TypeExpr) : Prop :=
  ∀ (depth : Nat) ⦃rest : List Token⦄, 8 * t.tokens.length ≤ depth → Follows closers rest →
    Reads (readUnion depth) t.tokens t rest

theorem length_pos_of_leads {toks : List Token} (h : Leads toks) : 0 < toks.length := by
  cases toks with
  | nil => exact absurd h id
  | cons tok toks => exact Nat.succ_pos _

theorem readBrackets_of_follows {marks : List Char} {t : TypeExpr} {ls : List Lexeme}
    {rest : List Token} (h : Follows marks rest) (hls : ls.map Lexeme.token = rest)
    (hbracket : '[' ∉ marks) :
    readBrackets t ls = (t, ls) := by
  have hat := h.at?_eq_false hls hbracket
  unfold readBrackets
  split
  · simp [at?, peek] at hat
  · rfl

theorem ReadsOperand.readsPostfix {t : TypeExpr} (h : ReadsOperand t)
    (hpos : 0 < t.tokens.length) : ReadsPostfix t := by
  intro depth rest hdepth hrest ls hls
  obtain ⟨depth, rfl⟩ : ∃ d, depth = d + 1 := ⟨depth - 1, by omega⟩
  have hfollows : Follows (if t.isOpenEnded then afterOperand else afterAtom) rest := by
    split
    · exact hrest
    · exact hrest.mono (List.subset_cons_self _ _)
  obtain ⟨u, left, left', hread, hbrackets, hleft⟩ := h depth (by omega) hfollows hls
  refine ⟨left', ?_, hleft⟩
  rw [readPostfix, hread]
  show Except.ok (readBrackets u left) = _
  rw [hbrackets, readBrackets_of_follows hrest hleft (by decide)]

/-! ## Intersections and unions -/

/-- An `&` before a type joins two types, unless the type starts with a variable. -/
theorem atIntersection_of_leads {ls : List Lexeme} {toks rest : List Token}
    (hls : ls.map Lexeme.token = .punct '&' :: (toks ++ rest)) (hlead : Leads toks)
    (hthis : toks.head? ≠ some (.variable "$this")) : atIntersection ls = true := by
  cases toks with
  | nil => exact absurd hlead id
  | cons tok toks =>
    have hsecond : peekSecond ls = some tok := peek_of_cons (map_tail_of_cons hls)
    have hopens := hlead.1
    rw [atIntersection, at?_of_cons hls, hsecond]
    cases tok with
    | «variable» text =>
      simp only [opens, beq_iff_eq] at hopens
      simp [hopens] at hthis
    | ellipsis => simp [opens] at hopens
    | _ => rfl

theorem reads_conjuncts {members : List TypeExpr}
    (h : ∀ m ∈ members, ReadsPostfix m ∧ Leads m.tokens)
    (hthis : ∀ m ∈ members, m.tokens.head? ≠ some (.variable "$this")) (depth : Nat)
    {rest : List Token}
    (hdepth : 8 * ((members.map tokens).flatMap (Token.punct '&' :: ·)).length + 1 ≤ depth)
    (hrest : Follows afterMember rest) :
    Reads (readConjuncts depth) ((members.map tokens).flatMap (Token.punct '&' :: ·))
      members rest := by
  induction members generalizing depth with
  | nil =>
    intro ls hls
    obtain ⟨depth, rfl⟩ : ∃ d, depth = d + 1 := ⟨depth - 1, by omega⟩
    have hat : atIntersection ls = false := by
      rw [atIntersection, hrest.at?_eq_false hls (by decide)]
      rfl
    refine ⟨ls, ?_, hls⟩
    rw [readConjuncts, hat]
    rfl
  | cons m members ih =>
    intro ls hls
    obtain ⟨depth, rfl⟩ : ∃ d, depth = d + 1 := ⟨depth - 1, by omega⟩
    simp only [List.map_cons, List.flatMap_cons, List.cons_append, List.append_assoc] at hls
    simp only [List.map_cons, List.flatMap_cons, List.length_append, List.length_cons] at hdepth
    obtain ⟨hmember, hlead⟩ := h m (by simp)
    have hat := atIntersection_of_leads hls hlead (hthis m (by simp))
    obtain ⟨left, hread, hleft⟩ :=
      hmember depth (by omega) (hrest.separated _) (map_tail_of_cons hls)
    obtain ⟨left', hread', hleft'⟩ :=
      ih (fun m' hm' => h m' (by simp [hm'])) (fun m' hm' => hthis m' (by simp [hm'])) depth
        (by omega) hleft
    refine ⟨left', ?_, hleft'⟩
    rw [readConjuncts, if_pos hat, hread]
    show (readConjuncts depth left >>= fun r => Except.ok (m :: r.1, r.2)) = _
    rw [hread']
    rfl

/-- A type with the members of an intersection behind it, of which there may be none. -/
theorem reads_intersection {first : TypeExpr} {more : List TypeExpr}
    (h : ∀ m ∈ first :: more, ReadsPostfix m ∧ Leads m.tokens)
    (hthis : ∀ m ∈ more, m.tokens.head? ≠ some (.variable "$this")) (depth : Nat)
    {rest : List Token}
    (hdepth : 8 * (joinTokens '&' ((first :: more).map tokens)).length ≤ depth + 1)
    (hrest : Follows afterMember rest) :
    Reads (readIntersection depth) (joinTokens '&' ((first :: more).map tokens))
      (if more.isEmpty then first else .inter (first :: more)) rest := by
  intro ls hls
  obtain ⟨hmember, hlead⟩ := h first (by simp)
  have hpos := length_pos_of_leads hlead
  rw [List.map_cons, joinTokens, List.length_append] at hdepth
  rw [List.map_cons, joinTokens, List.append_assoc] at hls
  obtain ⟨depth, rfl⟩ : ∃ d, depth = d + 1 := ⟨depth - 1, by omega⟩
  obtain ⟨left, hread, hleft⟩ := hmember depth (by omega) (hrest.separated _) hls
  obtain ⟨left', hread', hleft'⟩ :=
    reads_conjuncts (fun m hm => h m (by simp [hm])) hthis depth (by omega) hrest hleft
  refine ⟨left', ?_, hleft'⟩
  rw [readIntersection, hread]
  show (readConjuncts depth left >>= fun r =>
    Except.ok (if r.1.isEmpty then first else TypeExpr.inter (first :: r.1), r.2)) = _
  rw [hread']
  rfl

theorem ReadsPostfix.readsIntersection {t : TypeExpr} (h : ReadsPostfix t)
    (hlead : Leads t.tokens) :
    ReadsIntersection t := by
  intro depth rest hdepth hrest
  have hjoin : joinTokens '&' ([t].map tokens) = t.tokens := by simp [joinTokens]
  have hmem : ∀ m ∈ [t], ReadsPostfix m ∧ Leads m.tokens := by simpa using ⟨h, hlead⟩
  have hread := reads_intersection hmem (by simp) depth (by rw [hjoin]; exact hdepth) hrest
  rw [hjoin] at hread
  exact hread

section Union

variable {α : Type} {toks : α → List Token} {type : α → TypeExpr}

theorem reads_alternatives {members : List α}
    (h : ∀ m ∈ members, ReadsMember (toks m) (type m)) (depth : Nat)
    {rest : List Token}
    (hdepth : 8 * ((members.map toks).flatMap (Token.punct '|' :: ·)).length + 1 ≤ depth)
    (hrest : Follows closers rest) :
    Reads (readAlternatives depth) ((members.map toks).flatMap (Token.punct '|' :: ·))
      (members.map type) rest := by
  induction members generalizing depth with
  | nil =>
    intro ls hls
    obtain ⟨depth, rfl⟩ : ∃ d, depth = d + 1 := ⟨depth - 1, by omega⟩
    refine ⟨ls, ?_, hls⟩
    rw [readAlternatives, hrest.at?_eq_false hls (by decide)]
    rfl
  | cons m members ih =>
    intro ls hls
    obtain ⟨depth, rfl⟩ : ∃ d, depth = d + 1 := ⟨depth - 1, by omega⟩
    simp only [List.map_cons, List.flatMap_cons, List.cons_append, List.append_assoc] at hls
    simp only [List.map_cons, List.flatMap_cons, List.length_append, List.length_cons] at hdepth
    obtain ⟨left, hread, hleft⟩ :=
      h m (by simp) depth (by omega) (hrest.separated _) (map_tail_of_cons hls)
    obtain ⟨left', hread', hleft'⟩ :=
      ih (fun m' hm' => h m' (by simp [hm'])) depth (by omega) hleft
    refine ⟨left', ?_, hleft'⟩
    rw [readAlternatives, if_pos (at?_of_cons hls), hread]
    show (readAlternatives depth left >>= fun r => Except.ok (type m :: r.1, r.2)) = _
    rw [hread']
    rfl

theorem reads_union {first second : α} {more : List α}
    (h : ∀ m ∈ first :: second :: more, ReadsMember (toks m) (type m))
    (hpos : 0 < (toks first).length) (depth : Nat) {rest : List Token}
    (hdepth : 8 * (joinTokens '|' ((first :: second :: more).map toks)).length ≤ depth)
    (hrest : Follows closers rest) :
    Reads (readUnion depth) (joinTokens '|' ((first :: second :: more).map toks))
      (.union ((first :: second :: more).map type)) rest := by
  intro ls hls
  rw [List.map_cons, joinTokens, List.length_append] at hdepth
  rw [List.map_cons, joinTokens, List.append_assoc] at hls
  obtain ⟨depth, rfl⟩ : ∃ d, depth = d + 1 := ⟨depth - 1, by omega⟩
  obtain ⟨left, hread, hleft⟩ :=
    h first (by simp) depth (by omega) (follows_cons (by decide) _) hls
  obtain ⟨left', hread', hleft'⟩ :=
    reads_alternatives (fun m hm => h m (List.mem_cons_of_mem first hm)) depth
      (by omega) hrest hleft
  refine ⟨left', ?_, hleft'⟩
  rw [readUnion, hread]
  show (if at? '|' left then
    readAlternatives depth left >>= fun r =>
      Except.ok (TypeExpr.union (type first :: r.1), r.2) else _) = _
  rw [if_pos (at?_of_cons hleft), hread']
  rfl

end Union

theorem ReadsIntersection.readsUnion {t : TypeExpr} (h : ReadsIntersection t)
    (hlead : Leads t.tokens) :
    ReadsUnion t := by
  intro depth rest hdepth hrest ls hls
  have hpos := length_pos_of_leads hlead
  obtain ⟨depth, rfl⟩ : ∃ d, depth = d + 1 := ⟨depth - 1, by omega⟩
  obtain ⟨left, hread, hleft⟩ := h depth (by omega) (hrest.mono (List.subset_cons_self _ _)) hls
  refine ⟨left, ?_, hleft⟩
  rw [readUnion, hread]
  show (if at? '|' left then _ else _) = _
  rw [hrest.at?_eq_false hleft (by decide)]
  rfl

/-! ## Lists in brackets -/

/-- One step of a reader of lists: it takes the item `x` and goes on behind a comma, or stops
behind the closing bracket. -/
def ReadsItem {α : Type} (reader : Nat → List Lexeme → Except TypeError (List α × List Lexeme))
    (toks : α → List Token) (closing : Char) (x : α) : Prop :=
  ∀ (depth : Nat) ⦃c : Char⦄ ⦃ls : List Lexeme⦄ ⦃rest : List Token⦄, c = ',' ∨ c = closing →
    8 * (toks x).length + 1 ≤ depth → ls.map Lexeme.token = toks x ++ .punct c :: rest →
    ∃ left, left.map Lexeme.token = .punct c :: rest ∧
      reader (depth + 1) ls =
        if at? ',' left then reader depth left.tail >>= fun r => .ok (x :: r.1, r.2)
        else expect closing left >>= fun ts => .ok ([x], ts)

theorem reads_list {α : Type}
    {reader : Nat → List Lexeme → Except TypeError (List α × List Lexeme)}
    {toks : α → List Token} {closing : Char} {items : List α} (hcomma : closing ≠ ',')
    (hclose : ∀ depth ls rest, ls.map Lexeme.token = .punct closing :: rest →
      reader (depth + 1) ls = .ok ([], ls.tail))
    (hitem : ∀ x ∈ items, ReadsItem reader toks closing x) (depth : Nat) {rest : List Token}
    (hdepth : 8 * (joinTokens ',' (items.map toks)).length + 2 ≤ depth) :
    Reads (reader depth) (joinTokens ',' (items.map toks) ++ [.punct closing]) items rest := by
  intro ls hls
  obtain ⟨depth, rfl⟩ : ∃ d, depth = d + 1 := ⟨depth - 1, by omega⟩
  match items with
  | [] => exact ⟨ls.tail, hclose depth ls rest hls, map_tail_of_cons hls⟩
  | [x] =>
    simp only [List.map_cons, List.map_nil, joinTokens, List.flatMap_nil, List.append_nil,
      List.append_assoc, List.singleton_append] at hls hdepth
    obtain ⟨left, hleft, hread⟩ := hitem x (by simp) depth (Or.inr rfl) (by omega) hls
    have hne : Token.punct closing ≠ .punct ',' := fun heq => hcomma (Token.punct.inj heq)
    refine ⟨left.tail, ?_, map_tail_of_cons hleft⟩
    rw [hread, at?_eq_false hleft hne, expect_of_cons hleft]
    rfl
  | x :: y :: items =>
    have hjoin : joinTokens ',' ((x :: y :: items).map toks)
        = toks x ++ .punct ',' :: joinTokens ',' ((y :: items).map toks) := rfl
    rw [hjoin, List.append_assoc, List.append_assoc] at hls
    rw [hjoin, List.length_append, List.length_cons] at hdepth
    obtain ⟨left, hleft, hread⟩ := hitem x (by simp) depth (Or.inl rfl) (by omega) hls
    have hitems : ∀ z ∈ y :: items, ReadsItem reader toks closing z :=
      fun z hz => hitem z (List.mem_cons_of_mem x hz)
    obtain ⟨left', hread', hleft'⟩ := reads_list hcomma hclose hitems depth (by omega) (by
      rw [map_tail_of_cons hleft, List.append_assoc]; rfl)
    refine ⟨left', ?_, hleft'⟩
    rw [hread, at?_of_cons hleft, if_pos rfl, hread']
    rfl

theorem at?_eq_false_of_opens {ls : List Lexeme} {tok : Token} {toks : List Token} {c : Char}
    (hls : ls.map Lexeme.token = tok :: toks) (hopens : opens tok = true)
    (hc : c ≠ '?' ∧ c ≠ '(') :
    at? c ls = false := by
  refine at?_eq_false hls ?_
  rintro rfl
  simp [opens, hc] at hopens

/-- A type does not start with a mark other than `?` and `(`. -/
theorem at?_eq_false_of_leads {ls : List Lexeme} {toks rest : List Token} {c : Char}
    (hlead : Leads toks) (hls : ls.map Lexeme.token = toks ++ rest) (hc : c ≠ '?' ∧ c ≠ '(') :
    at? c ls = false := by
  cases toks with
  | nil => exact absurd hlead id
  | cons tok toks => exact at?_eq_false_of_opens hls hlead.1 hc

/-- The word in front of a type parameter is dropped only if it is not the parameter. -/
theorem dropVariance_eq {p : TypeExpr} {ls : List Lexeme} {c : Char} {rest : List Token}
    (hc : c = ',' ∨ c = '>') (hls : ls.map Lexeme.token = p.tokens ++ .punct c :: rest)
    (hlead : Leads p.tokens)
    (hword : ∀ word ∈ ["covariant", "contravariant"], p.tokens.head? = some (.ident word) →
      p = .name word) :
    dropVariance ls = ls := by
  -- a parameter that starts with such a word is that word, so the mark behind it comes next
  have hbare : ∀ word ∈ ["covariant", "contravariant"], peek ls = some (.ident word) →
      peekSecond ls = some (.punct ',') ∨ peekSecond ls = some (.punct '>') := by
    intro word hmem hpeek
    have hhead : p.tokens.head? = some (.ident word) := by
      rw [peek_eq, hls] at hpeek
      cases htoks : p.tokens with
      | nil => rw [htoks] at hlead; exact absurd hlead id
      | cons tok toks => rw [htoks] at hpeek; exact hpeek
    obtain rfl := hword word hmem hhead
    have hone : ∀ word ∈ ["covariant", "contravariant"], (TypeExpr.name word).tokens =
        [.ident word] := by decide
    rw [hone word hmem] at hls
    have hsecond : peekSecond ls = some (.punct c) := peek_of_cons (map_tail_of_cons hls)
    rcases hc with rfl | rfl
    · exact Or.inl hsecond
    · exact Or.inr hsecond
  unfold dropVariance
  split
  · rfl
  · rfl
  · rfl
  · rfl
  · rename_i hpeek hcomma hangle
    rcases hbare "covariant" (by simp) hpeek with hsecond | hsecond
    · exact absurd hsecond hcomma
    · exact absurd hsecond hangle
  · rename_i hpeek hcomma hangle
    rcases hbare "contravariant" (by simp) hpeek with hsecond | hsecond
    · exact absurd hsecond hcomma
    · exact absurd hsecond hangle
  · rfl

theorem readsItem_param {p : TypeExpr} (h : ReadsUnion p) (hlead : Leads p.tokens)
    (hword : ∀ word ∈ ["covariant", "contravariant"], p.tokens.head? = some (.ident word) →
      p = .name word) :
    ReadsItem readParams tokens '>' p := by
  intro depth c ls rest hc hdepth hls
  have hfollows : Follows closers (.punct c :: rest) :=
    follows_cons (by rcases hc with rfl | rfl <;> decide) rest
  obtain ⟨left, hread, hleft⟩ := h depth (by omega) hfollows hls
  refine ⟨left, hleft, ?_⟩
  rw [readParams, if_neg (by rw [at?_eq_false_of_leads hlead hls (by decide)]; decide),
    dropVariance_eq hc hls hlead hword, hread]
  rfl

theorem dropParameterMarks_eq {ls : List Lexeme} {c : Char} {rest : List Token}
    (hc : c = ',' ∨ c = ')')
    (hls : ls.map Lexeme.token = .punct c :: rest) : dropParameterMarks ls = ls := by
  have hpeek := peek_of_cons hls
  have hdrop : ∀ mark, mark ≠ ',' → mark ≠ ')' → dropPunct mark ls = ls := by
    intro mark hcomma hparen
    have hne : Token.punct c ≠ .punct mark := by
      rintro ⟨⟩; rcases hc with rfl | rfl <;> contradiction
    rw [dropPunct, at?_eq_false hls hne]
    rfl
  unfold dropParameterMarks
  simp [hdrop '&', hdrop '=', hpeek]

theorem readsItem_callableParam {p : TypeExpr} (h : ReadsUnion p) (hlead : Leads p.tokens) :
    ReadsItem readCallableParams tokens ')' p := by
  intro depth c ls rest hc hdepth hls
  have hfollows : Follows closers (.punct c :: rest) :=
    follows_cons (by rcases hc with rfl | rfl <;> decide) rest
  obtain ⟨left, hread, hleft⟩ := h depth (by omega) hfollows hls
  refine ⟨left, hleft, ?_⟩
  rw [readCallableParams, if_neg (by rw [at?_eq_false_of_leads hlead hls (by decide)]; decide),
    hread]
  show (if at? ',' (dropParameterMarks left) then _ else _) = _
  rw [dropParameterMarks_eq hc hleft]
  rfl

/-- A type in the place of a field is not taken for a key. -/
theorem fieldKey?_eq_none {ls : List Lexeme} {toks rest : List Token} (hlead : Leads toks)
    (hrest : Marked rest) (hls : ls.map Lexeme.token = toks ++ rest) : fieldKey? ls = none := by
  have hlead' := hlead.append hrest
  rw [← hls] at hlead'
  cases ls with
  | nil => exact absurd hlead' id
  | cons l ls =>
    have hmarked : (∀ c, l.token ≠ .punct c) →
        (peekSecond (l :: ls) == some (.punct ':')) = false ∧
            (peekSecond (l :: ls) == some (.punct '?')) = false := by
      intro hword
      have hnext := hlead'.2 hword
      rw [peekSecond, List.tail_cons, peek_eq]
      cases hhead : (ls.map Lexeme.token).head? with
      | none => exact ⟨rfl, rfl⟩
      | some next =>
        obtain ⟨c, rfl, hcolon, hquestion⟩ := hnext next hhead
        simp [hcolon, hquestion]
    have hpeek : peek (l :: ls) = some l.token := rfl
    unfold fieldKey?
    rw [hpeek]
    cases htok : l.token with
    | ident text => simp [hmarked (by simp [htok])]
    | number text => simp [hmarked (by simp [htok])]
    | quoted text => simp [hmarked (by simp [htok])]
    | _ => rfl

theorem fieldKey?_eq_some {ls : List Lexeme} {key : String} {optional : Bool} {rest : List Token}
    (hls : ls.map Lexeme.token = labelTokens (some key) optional ++ rest) :
    fieldKey? ls = some key := by
  have hkey : keyToken key = .ident key ∨ keyToken key = .number key := by
    unfold keyToken
    split
    · exact Or.inl rfl
    · exact Or.inr rfl
  cases optional with
  | true =>
    have hsecond : peekSecond ls = some (.punct '?') := peek_of_cons (map_tail_of_cons hls)
    have hthird : peekThird ls = some (.punct ':') :=
      peek_of_cons (map_tail_of_cons (map_tail_of_cons hls))
    unfold fieldKey?
    rw [peek_of_cons hls, hsecond, hthird]
    rcases hkey with hkey | hkey <;> rw [hkey] <;> rfl
  | false =>
    have hsecond : peekSecond ls = some (.punct ':') := peek_of_cons (map_tail_of_cons hls)
    unfold fieldKey?
    rw [peek_of_cons hls, hsecond]
    rcases hkey with hkey | hkey <;> rw [hkey] <;> rfl

theorem reads_field {f : ShapeField} (hf : PlainField f) (h : ReadsUnion f.value)
    (hlead : Leads f.value.tokens) (depth : Nat) {rest : List Token}
    (hdepth : 8 * (fieldTokens f).length + 1 ≤ depth) (hrest : Follows closers rest) :
    Reads (readField depth) (fieldTokens f) f rest := by
  intro ls hls
  obtain ⟨depth, rfl⟩ : ∃ d, depth = d + 1 := ⟨depth - 1, by omega⟩
  obtain ⟨key, optional, value⟩ := f
  rw [fieldTokens, List.append_assoc] at hls
  rw [fieldTokens, List.length_append] at hdepth
  have hvalue : ∀ ⦃ls : List Lexeme⦄, ls.map Lexeme.token = value.tokens ++ rest →
      ∃ left, readUnion depth ls = .ok (value, left) ∧ left.map Lexeme.token = rest :=
    h depth (by omega) hrest
  cases key with
  | none =>
    obtain rfl : optional = false := hf
    have hkey : fieldKey? ls = none :=
      fieldKey?_eq_none hlead (hrest.marked (by decide) (by decide)) hls
    obtain ⟨left, hread, hleft⟩ := hvalue hls
    refine ⟨left, ?_, hleft⟩
    rw [readField, hkey]
    show (readUnion depth ls >>= fun r => Except.ok (ShapeField.mk none false r.1, r.2)) = _
    rw [hread]
    rfl
  | some key =>
    have hkey : fieldKey? ls = some key := fieldKey?_eq_some hls
    -- the key is followed by `:` or by `?` and `:`, and both ways the type comes next
    have hcolon : ∃ ts, ts.map Lexeme.token = value.tokens ++ rest ∧ at? '?' ls.tail = optional ∧
        expect ':' (dropPunct '?' ls.tail) = .ok ts := by
      cases optional with
      | true =>
        have htail := map_tail_of_cons hls
        refine ⟨ls.tail.tail.tail, map_tail_of_cons (map_tail_of_cons htail),
          at?_of_cons htail, ?_⟩
        rw [dropPunct, if_pos (at?_of_cons htail), expect_of_cons (map_tail_of_cons htail)]
      | false =>
        have htail := map_tail_of_cons hls
        have hat := at?_eq_false (c := '?') htail (by decide)
        refine ⟨ls.tail.tail, map_tail_of_cons htail, hat, ?_⟩
        rw [dropPunct, hat, if_neg Bool.false_ne_true, expect_of_cons htail]
    obtain ⟨ts, hts, hoptional, hexpect⟩ := hcolon
    obtain ⟨left, hread, hleft⟩ := hvalue hts
    refine ⟨left, ?_, hleft⟩
    rw [readField, hkey]
    show (expect ':' (dropPunct '?' ls.tail) >>= fun ts => readUnion depth ts >>= fun r =>
      Except.ok (ShapeField.mk (some key) (at? '?' ls.tail) r.1, r.2)) = _
    rw [hexpect, hoptional]
    show (readUnion depth ts >>= fun r => Except.ok (ShapeField.mk (some key) optional r.1, r.2)) =
        _
    rw [hread]
    rfl

/-- A field starts with its key or with its type. -/
theorem fieldTokens_eq_cons {f : ShapeField} (hlead : Leads f.value.tokens) :
    ∃ tok toks, fieldTokens f = tok :: toks ∧ opens tok = true := by
  obtain ⟨key, optional, value⟩ := f
  cases key with
  | none =>
    cases htoks : value.tokens with
    | nil => rw [ShapeField.value, htoks] at hlead; exact absurd hlead id
    | cons tok toks =>
      rw [ShapeField.value, htoks] at hlead
      exact ⟨tok, toks, htoks, hlead.1⟩
  | some key =>
    have hopens : opens (keyToken key) = true := by
      unfold keyToken
      split
      · rfl
      · rfl
    cases optional with
    | true => exact ⟨keyToken key, _, rfl, hopens⟩
    | false => exact ⟨keyToken key, _, rfl, hopens⟩

theorem readsItem_field {f : ShapeField} (hf : PlainField f) (h : ReadsUnion f.value)
    (hlead : Leads f.value.tokens) :
    ReadsItem readFields fieldTokens '\x7d' f := by
  intro depth c ls rest hc hdepth hls
  have hfollows : Follows closers (.punct c :: rest) :=
    follows_cons (by rcases hc with rfl | rfl <;> decide) rest
  obtain ⟨left, hread, hleft⟩ := reads_field hf h hlead depth hdepth hfollows hls
  refine ⟨left, hleft, ?_⟩
  obtain ⟨tok, toks, htoks, hopens⟩ := fieldTokens_eq_cons hlead
  rw [htoks] at hls
  have hbrace : at? '\x7d' ls = false := at?_eq_false_of_opens hls hopens (by decide)
  have hellipsis : (peek ls == some .ellipsis) = false := by
    rw [peek_of_cons hls]
    cases tok with
    | ellipsis => simp [opens] at hopens
    | _ => rfl
  rw [readFields, hbrace, if_neg Bool.false_ne_true, hellipsis, if_neg Bool.false_ne_true, hread]
  rfl

/-! ## Types without brackets behind them -/

theorem ReadsOperand.of_reads {t : TypeExpr}
    (h : ∀ (depth : Nat) ⦃rest : List Token⦄, 8 * t.tokens.length ≤ depth + 3 →
      Follows (if t.isOpenEnded then afterOperand else afterAtom) rest →
        Reads (readAtom depth) t.tokens t rest) :
    ReadsOperand t := by
  intro depth rest ls hdepth hrest hls
  obtain ⟨left, hread, hleft⟩ := h depth hdepth hrest hls
  exact ⟨t, left, left, hread, rfl, hleft⟩

theorem readBrackets_cons {t : TypeExpr} {ls : List Lexeme} {rest : List Token}
    (hls : ls.map Lexeme.token = .punct '[' :: .punct ']' :: rest) :
    readBrackets t ls = readBrackets (.array t) ls.tail.tail := by
  match ls with
  | [] => simp at hls
  | [l] => simp at hls
  | ⟨tok, start, stop⟩ :: ⟨tok', start', stop'⟩ :: ls =>
    simp only [List.map_cons, List.cons.injEq] at hls
    obtain ⟨rfl, rfl, -⟩ := hls
    rw [readBrackets]
    rfl

theorem readsOperand_name {text : String} (htoks : (TypeExpr.name text).tokens = [.ident text]) :
    ReadsOperand (.name text) := by
  refine .of_reads fun depth rest hdepth hrest ls hls => ?_
  rw [htoks] at hls hdepth
  obtain ⟨depth, rfl⟩ : ∃ d, depth = d + 2 := ⟨depth - 2, by simp at hdepth; omega⟩
  have hrest' : Follows afterAtom rest := hrest
  have htail := map_tail_of_cons hls
  refine ⟨ls.tail, ?_, htail⟩
  rw [readAtom, peek_of_cons hls]
  show readNamed (depth + 1) text ls.tail = _
  rw [readNamed, hrest'.at?_eq_false htail (by decide), hrest'.at?_eq_false htail (by decide),
    hrest'.at?_eq_false htail (by decide)]
  rfl

/-- A type that is one token, and not a name. -/
theorem readsOperand_token {t : TypeExpr} {tok : Token} (htoks : t.tokens = [tok])
    (hread : ∀ depth ls, peek ls = some tok → readAtom (depth + 1) ls = .ok (t, ls.tail)) :
    ReadsOperand t := by
  refine .of_reads fun depth rest hdepth _ ls hls => ?_
  rw [htoks] at hls hdepth
  obtain ⟨depth, rfl⟩ : ∃ d, depth = d + 1 := ⟨depth - 1, by simp at hdepth; omega⟩
  exact ⟨ls.tail, hread depth ls (peek_of_cons hls), map_tail_of_cons hls⟩

theorem readsOperand_nullable {inner : TypeExpr} (h : ReadsPostfix inner)
    (htoks : (TypeExpr.nullable inner).tokens = .punct '?' :: inner.tokens) :
    ReadsOperand (.nullable inner) := by
  refine .of_reads fun depth rest hdepth hrest ls hls => ?_
  rw [htoks] at hls hdepth
  rw [List.length_cons] at hdepth
  obtain ⟨depth, rfl⟩ : ∃ d, depth = d + 1 := ⟨depth - 1, by omega⟩
  obtain ⟨left, hread, hleft⟩ := h depth (by omega) hrest (map_tail_of_cons hls)
  refine ⟨left, ?_, hleft⟩
  rw [readAtom, peek_of_cons hls]
  show (readPostfix depth ls.tail >>= fun r => Except.ok (TypeExpr.nullable r.1, r.2)) = _
  rw [hread]
  rfl

theorem readsOperand_array {element : TypeExpr} (h : ReadsOperand element)
    (hopen : element.isOpenEnded = false)
    (htoks : (TypeExpr.array element).tokens = element.tokens ++ [.punct '[', .punct ']']) :
    ReadsOperand (.array element) := by
  intro depth rest ls hdepth hrest hls
  rw [htoks, List.append_assoc] at hls
  rw [htoks, List.length_append] at hdepth
  have hfollows : Follows (if element.isOpenEnded then afterOperand else afterAtom)
      (.punct '[' :: .punct ']' :: rest) := by
    rw [hopen]
    exact follows_cons (by decide) _
  -- the element leaves its own brackets and the pair behind it to the same loop
  obtain ⟨u, left, left', hread, hbrackets, hleft⟩ := h depth (by omega) hfollows hls
  refine ⟨u, left, left'.tail.tail, hread, ?_, map_tail_of_cons (map_tail_of_cons hleft)⟩
  rw [hbrackets, readBrackets_cons hleft]

theorem atWord_eq_false {ls : List Lexeme} (h : Marked (ls.map Lexeme.token)) (word : String) :
    atWord word ls = false := by
  unfold atWord
  split
  · rename_i text hpeek
    rw [peek_eq] at hpeek
    obtain ⟨c, hc, -⟩ := h _ hpeek
    exact absurd hc nofun
  · rfl

/-- A type in parentheses is not taken for a condition on a variable. -/
theorem readParenthesized_of_leads {ls : List Lexeme} (h : Leads (ls.map Lexeme.token))
    (depth : Nat) :
    readParenthesized (depth + 1) ls = readUnion depth ls >>= fun r =>
      if atWord "is" r.2 then readConditional depth r.2 else expect ')' r.2 >>= fun ts =>
        .ok (r.1, ts) := by
  rw [readParenthesized]
  split
  · rename_i text hpeek hword
    cases ls with
    | nil => exact absurd h id
    | cons l ls =>
      have hvariable : l.token = .variable text := Option.some.inj hpeek
      have hmarked := h.2 (by simp [hvariable])
      rw [List.tail_cons, atWord_eq_false hmarked] at hword
      exact absurd hword Bool.false_ne_true
  · rfl

/-- A type in parentheses is read as the type. -/
theorem reads_parenthesized {t : TypeExpr} (h : ReadsUnion t)
    (hlead : Leads t.tokens) (depth : Nat) {rest : List Token}
    (hdepth : 8 * t.tokens.length + 2 ≤ depth) :
    Reads (readAtom depth) (.punct '(' :: (t.tokens ++ [.punct ')'])) t rest := by
  intro ls hls
  rw [List.cons_append, List.append_assoc] at hls
  obtain ⟨depth, rfl⟩ : ∃ d, depth = d + 2 := ⟨depth - 2, by omega⟩
  have htail := map_tail_of_cons hls
  obtain ⟨left, hread, hleft⟩ := h depth (by omega) (follows_cons (by decide) _) htail
  refine ⟨left.tail, ?_, map_tail_of_cons hleft⟩
  -- neither the start nor the end of the type looks like a condition
  have hlead' : Leads (ls.tail.map Lexeme.token) := by
    rw [htail]
    exact hlead.append (marked_cons (by decide) _)
  have hmarked : Marked (left.map Lexeme.token) := by
    rw [hleft]
    exact marked_cons (by decide) _
  rw [readAtom, peek_of_cons hls]
  show readParenthesized (depth + 1) ls.tail = _
  rw [readParenthesized_of_leads hlead', hread]
  show (if atWord "is" left then _ else expect ')' left >>= fun ts => Except.ok (t, ts)) = _
  rw [atWord_eq_false hmarked, if_neg Bool.false_ne_true, expect_of_cons hleft]
  rfl

theorem readsOperand_array_compound {element : TypeExpr} (h : ReadsUnion element)
    (hlead : Leads element.tokens) (htoks : (TypeExpr.array element).tokens
      = .punct '(' :: (element.tokens ++ [.punct ')', .punct '[', .punct ']'])) :
    ReadsOperand (.array element) := by
  intro depth rest ls hdepth hrest hls
  have hsplit : ls.map Lexeme.token
      = .punct '(' :: (element.tokens ++ [.punct ')']) ++ .punct '[' :: .punct ']' :: rest := by
    rw [hls, htoks]
    simp
  rw [htoks, List.length_cons, List.length_append] at hdepth
  obtain ⟨left, hread, hleft⟩ := reads_parenthesized h hlead depth (by omega) hsplit
  exact ⟨element, left, left.tail.tail, hread, readBrackets_cons hleft,
    map_tail_of_cons (map_tail_of_cons hleft)⟩

theorem readsOperand_generic {base : String} {params : List TypeExpr}
    (h : ∀ p ∈ params, ReadsItem readParams tokens '>' p)
    (htoks : (TypeExpr.generic base params).tokens
      = .ident base :: .punct '<' :: (joinTokens ',' (params.map tokens) ++ [.punct '>'])) :
    ReadsOperand (.generic base params) := by
  refine .of_reads fun depth rest hdepth _ ls hls => ?_
  rw [htoks] at hls hdepth
  simp only [List.length_cons, List.length_append] at hdepth
  obtain ⟨depth, rfl⟩ : ∃ d, depth = d + 2 := ⟨depth - 2, by omega⟩
  have htail := map_tail_of_cons hls
  have hclose : ∀ depth ls rest, ls.map Lexeme.token = .punct '>' :: rest →
      readParams (depth + 1) ls = .ok ([], ls.tail) := by
    intro depth ls rest hls
    rw [readParams, if_pos (at?_of_cons hls)]
  obtain ⟨left, hread, hleft⟩ :=
    reads_list (by decide) hclose h depth (by omega) (map_tail_of_cons htail)
  refine ⟨left, ?_, hleft⟩
  rw [readAtom, peek_of_cons hls]
  show readNamed (depth + 1) base ls.tail = _
  rw [readNamed, if_pos (at?_of_cons htail), hread]
  rfl

theorem readsOperand_shape {base : String} {fields : List ShapeField}
    (hbase : lower base ∈ shapeBases) (h : ∀ f ∈ fields, ReadsItem readFields fieldTokens '\x7d' f)
    (htoks : (TypeExpr.shape base fields).tokens =
      .ident base :: .punct '\x7b' ::
        (joinTokens ',' (fields.map fieldTokens) ++ [.punct '\x7d'])) :
    ReadsOperand (.shape base fields) := by
  refine .of_reads fun depth rest hdepth _ ls hls => ?_
  rw [htoks] at hls hdepth
  simp only [List.length_cons, List.length_append] at hdepth
  obtain ⟨depth, rfl⟩ : ∃ d, depth = d + 2 := ⟨depth - 2, by omega⟩
  have htail := map_tail_of_cons hls
  have hclose : ∀ depth ls rest, ls.map Lexeme.token = .punct '\x7d' :: rest →
      readFields (depth + 1) ls = .ok ([], ls.tail) := by
    intro depth ls rest hls
    rw [readFields, if_pos (at?_of_cons hls)]
  obtain ⟨left, hread, hleft⟩ :=
    reads_list (by decide) hclose h depth (by omega) (map_tail_of_cons htail)
  refine ⟨left, ?_, hleft⟩
  have hbrace : (at? '\x7b' ls.tail && shapeBases.contains (lower base)) = true := by
    rw [at?_of_cons htail, List.contains_iff_mem.mpr hbase]
    rfl
  rw [readAtom, peek_of_cons hls]
  show readNamed (depth + 1) base ls.tail = _
  rw [readNamed, at?_eq_false htail (by decide), if_neg Bool.false_ne_true, if_pos hbrace, hread]
  rfl

theorem readsOperand_callable {base : String} {params : List TypeExpr} {result : Option TypeExpr}
    (hbase : lower base ∈ callableBases)
    (h : ∀ p ∈ params, ReadsItem readCallableParams tokens ')' p)
    (hresult : ∀ r ∈ result, ReadsPostfix r)
    (htoks : (TypeExpr.callable base params result).tokens = .ident base :: .punct '(' ::
      (joinTokens ',' (params.map tokens) ++ .punct ')' :: resultTokens result)) :
    ReadsOperand (.callable base params result) := by
  refine .of_reads fun depth rest hdepth hrest ls hls => ?_
  rw [htoks] at hls hdepth
  simp only [List.length_cons, List.length_append] at hdepth
  obtain ⟨depth, rfl⟩ : ∃ d, depth = d + 2 := ⟨depth - 2, by omega⟩
  have htail := map_tail_of_cons hls
  have hclose : ∀ depth ls rest, ls.map Lexeme.token = .punct ')' :: rest →
      readCallableParams (depth + 1) ls = .ok ([], ls.tail) := by
    intro depth ls rest hls
    rw [readCallableParams, if_pos (at?_of_cons hls)]
  have hparams : ls.tail.tail.map Lexeme.token
      = joinTokens ',' (params.map tokens) ++ [.punct ')'] ++ (resultTokens result ++ rest) := by
    rw [map_tail_of_cons htail]
    simp
  obtain ⟨left, hread, hleft⟩ := reads_list (by decide) hclose h depth (by omega) hparams
  have hparen : (at? '(' ls.tail && callableBases.contains (lower base)) = true := by
    rw [at?_of_cons htail, List.contains_iff_mem.mpr hbase]
    rfl
  have hnamed : readAtom (depth + 2) ls =
      if at? ':' left then readPostfix depth left.tail >>= fun r =>
        Except.ok (TypeExpr.callable base params (some r.1), r.2)
      else Except.ok (TypeExpr.callable base params none, left) := by
    rw [readAtom, peek_of_cons hls]
    show readNamed (depth + 1) base ls.tail = _
    rw [readNamed, at?_eq_false htail (by decide), if_neg Bool.false_ne_true,
      at?_eq_false htail (by decide), Bool.false_and, if_neg Bool.false_ne_true,
        if_pos hparen, hread]
    rfl
  rw [hnamed]
  cases result with
  | none =>
    have hrest' : Follows afterAtom rest := hrest
    refine ⟨left, ?_, hleft⟩
    rw [hrest'.at?_eq_false hleft (by decide)]
    rfl
  | some r =>
    simp only [resultTokens, List.length_cons] at hdepth
    obtain ⟨left', hread', hleft'⟩ := hresult r rfl depth (by omega) hrest (map_tail_of_cons hleft)
    refine ⟨left', ?_, hleft'⟩
    rw [if_pos (at?_of_cons hleft), hread']
    rfl

/-! ## Every canonical type -/

/-- Each level of the reader that the type is written at reads it. -/
structure Readable (t : TypeExpr) : Prop where
  lead : Leads t.tokens
  operand : t.isCompound = false → ReadsOperand t
  intersection : t.isUnion = false → ReadsIntersection t
  union : ReadsUnion t

theorem Readable.readsPostfix {t : TypeExpr} (h : Readable t) (hc : t.isCompound = false) :
    ReadsPostfix t :=
  (h.operand hc).readsPostfix (length_pos_of_leads h.lead)

theorem Readable.of_operand {t : TypeExpr} (hlead : Leads t.tokens) (h : ReadsOperand t) :
    Readable t := by
  have hintersection := (h.readsPostfix (length_pos_of_leads hlead)).readsIntersection hlead
  exact ⟨hlead, fun _ => h, fun _ => hintersection, hintersection.readsUnion hlead⟩

theorem readable {t : TypeExpr} (h : Canonical t) : Readable t := by
  -- the parts of a type are canonical, so what their tokens are is known already
  induction h with
  | @name text h =>
    refine .of_operand (leads (.name h)) ?_
    rcases h with h | rfl
    · exact readsOperand_name (tokens_of_spells (spells_name h))
    · refine readsOperand_token (tokens_of_spells spells_this) fun depth ls hpeek => ?_
      rw [readAtom, hpeek]
      rfl
  | @quoted written h =>
    have htoks : (TypeExpr.literal (.text written)).tokens = [.quoted written] :=
      tokens_of_spells (spells_quoted h)
    refine .of_operand (leads (.quoted h)) (readsOperand_token htoks fun depth ls hpeek => ?_)
    rw [readAtom, hpeek]
  | @int written h hdot =>
    have htoks : (TypeExpr.literal (.int written)).tokens = [.number written] :=
      tokens_of_spells (spells_number h)
    refine .of_operand (leads (.int h hdot)) (readsOperand_token htoks fun depth ls hpeek => ?_)
    rw [readAtom, hpeek]
    simp [numberLiteral, hdot]
  | @float written h hdot =>
    have htoks : (TypeExpr.literal (.float written)).tokens = [.number written] :=
      tokens_of_spells (spells_number h)
    refine .of_operand (leads (.float h hdot)) (readsOperand_token htoks fun depth ls hpeek => ?_)
    rw [readAtom, hpeek]
    simp [numberLiteral, hdot]
  | nullable h hc ih =>
    have htoks := tokens_of_spells (spells_nullable (printed h))
    exact .of_operand (leads (.nullable h hc)) (readsOperand_nullable (ih.readsPostfix hc) htoks)
  | union hlen h hunion ih =>
    have hlead := leads (.union hlen h hunion)
    obtain ⟨first, second, more, rfl⟩ := exists_cons_of_two_le hlen
    have htoks := tokens_of_spells (spells_union fun m hm => printed (h m hm))
    refine ⟨hlead, by simp [isCompound], by simp [isUnion], fun depth rest hdepth hrest => ?_⟩
    rw [htoks] at hdepth ⊢
    have hmembers : ∀ m ∈ first :: second :: more, ReadsMember m.tokens (id m) :=
      fun m hm => (ih m hm).intersection (hunion m hm)
    have hread :=
      reads_union hmembers (length_pos_of_leads (ih first (by simp)).lead) depth hdepth hrest
    rwa [List.map_id] at hread
  | inter hlen h hc hthis ih =>
    have hlead := leads (.inter hlen h hc hthis)
    obtain ⟨first, second, more, rfl⟩ := exists_cons_of_two_le hlen
    have htoks := tokens_of_spells (spells_inter fun m hm => printed (h m hm))
    have hintersection : ReadsIntersection (.inter (first :: second :: more)) := by
      intro depth rest hdepth hrest
      rw [htoks] at hdepth ⊢
      exact reads_intersection (fun m hm => ⟨(ih m hm).readsPostfix (hc m hm), (ih m hm).lead⟩)
        hthis depth hdepth hrest
    exact ⟨hlead, by simp [isCompound], fun _ => hintersection, hintersection.readsUnion hlead⟩
  | @array element h hopen ih =>
    refine .of_operand (leads (.array h hopen)) ?_
    cases hc : element.isCompound with
    | true =>
      have htoks := tokens_of_spells (spells_array_compound (printed h) hc)
      exact readsOperand_array_compound ih.union ih.lead htoks
    | false =>
      have htoks := tokens_of_spells (spells_array (printed h) hc)
      exact readsOperand_array (ih.operand hc) hopen htoks
  | generic hbase h hword ih =>
    have htoks := tokens_of_spells (spells_generic hbase fun p hp => printed (h p hp))
    refine .of_operand (leads (.generic hbase h hword))
      (readsOperand_generic (fun p hp => ?_) htoks)
    exact readsItem_param (ih p hp).union (ih p hp).lead (hword p hp)
  | shape hbase h hfields ih =>
    have htoks := tokens_of_spells (spells_shape hbase hfields fun f hf => printed (h f hf))
    refine .of_operand (leads (.shape hbase h hfields))
      (readsOperand_shape hbase (fun f hf => ?_) htoks)
    exact readsItem_field (hfields f hf) (ih f hf).union (ih f hf).lead
  | callable hbase h hresult hc ih ihresult =>
    have htoks := tokens_of_spells
      (spells_callable hbase (fun p hp => printed (h p hp)) fun r hr => printed (hresult r hr))
    refine .of_operand (leads (.callable hbase h hresult hc))
      (readsOperand_callable hbase (fun p hp => ?_) (fun r hr => ?_) htoks)
    · exact readsItem_callableParam (ih p hp).union (ih p hp).lead
    · exact (ihresult r hr).readsPostfix (hc r hr)

/-- **Reading undoes printing.** The text of a canonical type denotes that type. -/
theorem parse_render {t : TypeExpr} (h : Canonical t) : parse t.render = .ok t := by
  have hfront : (lexemes t.render.toList).map Lexeme.token = t.tokens ++ [] :=
    (List.append_nil _).symm
  have hlength : t.tokens.length = (lexemes t.render.toList).length := List.length_map _
  have hdepth : 8 * t.tokens.length ≤ readingDepth (lexemes t.render.toList) := by
    rw [readingDepth, hlength]
    omega
  obtain ⟨left, hread, hleft⟩ := (readable h).union _ hdepth (follows_nil _) hfront
  obtain rfl : left = [] := List.map_eq_nil_iff.mp hleft
  rw [parse_eq_read]
  exact read_of_readUnion hread

/-- `array{0: ?int, tags?: ($this|Foo::BAR)[]}|Map<covariant, callable('it\'s'): list{-1.5}>` is
read back. -/
theorem parse_render_nested :
    let fields : List ShapeField := [.mk (some "0") false (.nullable (.name "int")),
      .mk (some "tags") true (.array (.union [.name "$this", .name "Foo::BAR"]))]
    let signature : TypeExpr := .callable "callable" [.literal (.text "'it\\'s'")]
      (some (.shape "list" [.mk none false (.literal (.float "-1.5"))]))
    let t : TypeExpr :=
      .union [.shape "array" fields, .generic "Map" [.name "covariant", signature]]
    Canonical t ∧ parse t.render = .ok t := by
  intro fields signature t
  have hname : ∀ text ∈ ["int", "Foo::BAR", "covariant"], Canonical (.name text) := by
    intro text htext
    have hwhole : ∀ text ∈ ["int", "Foo::BAR", "covariant"], Whole (.ident text) := by decide
    exact .name (Or.inl (hwhole text htext))
  have hthis : Canonical (.name "$this") := .name (Or.inr rfl)
  have htags : Canonical (.array (.union [.name "$this", .name "Foo::BAR"])) :=
    .array (.union (by decide) (by simpa using ⟨hthis, hname "Foo::BAR" (by decide)⟩)
      (by simp [isUnion])) rfl
  have hfields : Canonical (.shape "array" fields) := by
    refine .shape (by decide) ?_ ?_
    · simpa [fields, ShapeField.value] using ⟨.nullable (hname "int" (by decide)) rfl, htags⟩
    · simp [fields, PlainField]
      decide
  have hlist : Canonical (.shape "list" [.mk none false (.literal (.float "-1.5"))]) := by
    refine .shape (by decide) ?_ ?_
    · simpa [ShapeField.value] using Canonical.float (by decide) (by decide)
    · simp [PlainField]
  have hsignature : Canonical signature := by
    refine .callable (by decide) ?_ ?_ ?_
    · simpa using Canonical.quoted (by decide)
    · simpa using hlist
    · simp [isCompound]
  have hgeneric : Canonical (.generic "Map" [.name "covariant", signature]) := by
    refine .generic (by decide) ?_ ?_
    · simpa using ⟨hname "covariant" (by decide), hsignature⟩
    · refine List.forall_mem_cons.mpr ⟨?_, List.forall_mem_singleton.mpr ?_⟩
      · intro word _ hhead
        have hfirst : (TypeExpr.name "covariant").tokens.head? = some (.ident "covariant") := by
          decide
        rw [hfirst, Option.some.injEq, Token.ident.injEq] at hhead
        rw [hhead]
      · intro word hword hhead
        have hfirst : signature.tokens.head? = some (.ident "callable") := by decide
        rw [hfirst, Option.some.injEq, Token.ident.injEq] at hhead
        rw [← hhead] at hword
        exact absurd hword (by decide)
  have ht : Canonical t := by
    refine .union (by decide) ?_ ?_
    · simpa [t] using ⟨hfields, hgeneric⟩
    · simp [isUnion]
  exact ⟨ht, parse_render ht⟩

end ClassDocs.TypeExpr

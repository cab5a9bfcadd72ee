import ClassDocs.TypeExpr.Printer
import ClassDocs.Proofs.TokenReader
import Mathlib.Data.List.TakeWhile

/-!
# Where the tokens of a type text end

A printed type is put together from texts, and the tokens of the whole are those of its parts in
order only if no token runs on from one part into the next. A part `Splits` if that holds before
everything a part is ever followed by: the end of the text, or a punctuation mark that cannot go on
a name, a number or a class constant.

The readers see the tokens alone, so offsets are left out here until the very end, where what is
left after the last token has to be nothing but white space.
-/

namespace ClassDocs.TypeExpr

open ClassDocs.Text

/-- The tokens of an input. -/
def tokensOf (input : List Char) : List Token := (lexemes input).map Lexeme.token

/-- Offsets aside, neither the offset a scan starts at nor its bound matters, if the bound is large
enough. -/
theorem map_token_scan {steps steps' pos pos' : Nat} {input : List Char} (h : input.length ≤ steps)
    (h' : input.length ≤ steps') :
    (scan steps pos input).map Lexeme.token = (scan steps' pos' input).map Lexeme.token := by
  induction steps generalizing steps' pos pos' input with
  | zero =>
    obtain rfl := List.length_eq_zero_iff.mp (Nat.le_zero.mp h)
    cases steps' <;> rfl
  | succ steps ih =>
    cases input with
    | nil => cases steps' <;> rfl
    | cons c cs =>
      cases steps' with
      | zero => simp at h'
      | succ steps' =>
        simp only [List.length_cons, Nat.add_le_add_iff_right] at h h'
        simp only [scan]
        split
        · exact ih h h'
        · have hpos := text_tokenAt_pos c cs
          have hlen : ((c :: cs).drop (tokenAt c cs).text.toList.length).length ≤ cs.length := by
            rw [List.length_drop, List.length_cons]
            omega
          simp only [List.map_cons, List.cons.injEq, true_and]
          exact ih (Nat.le_trans hlen h) (Nat.le_trans hlen h')

@[simp] theorem tokensOf_nil : tokensOf [] = [] := rfl

theorem tokensOf_blank {c : Char} (h : isBlank c = true) (cs : List Char) :
    tokensOf (c :: cs) = tokensOf cs := by
  unfold tokensOf lexemes
  simp only [List.length_cons, scan, h, if_true]
  exact map_token_scan (Nat.le_refl _) (Nat.le_refl _)

theorem tokensOf_cons {c : Char} (h : isBlank c = false) (cs : List Char) :
    tokensOf (c :: cs) =
      tokenAt c cs :: tokensOf ((c :: cs).drop (tokenAt c cs).text.toList.length) := by
  have hpos := text_tokenAt_pos c cs
  unfold tokensOf lexemes
  simp only [List.length_cons, scan, h, Bool.false_eq_true, if_false, List.map_cons,
    List.cons.injEq, true_and]
  refine map_token_scan ?_ (Nat.le_refl _)
  rw [List.length_drop, List.length_cons]
  omega

/-! ## Where a token ends -/

/-- The texts that a part of a printed type is followed by: none, or one that starts with a
punctuation mark, but not with a `*` or with `::`, which a class constant could go on with. -/
def Stops (rest : List Char) : Prop :=
  (∀ c ∈ rest.head?, isPunct c = true ∧ c ≠ '*') ∧ constantAt rest = []

theorem stops_nil : Stops [] := ⟨nofun, rfl⟩

theorem of_isPunct {p : Char → Bool} (hp : "|&?<>,[]\x7b\x7d():=*".toList.all p = true) {c : Char}
    (h : isPunct c = true) : p c = true :=
  List.all_eq_true.mp hp c (List.contains_iff_mem.mp h)

/-- No punctuation mark but `*` goes on a name, a number or a class constant. -/
theorem ends_of_isPunct {c : Char} (h : isPunct c = true) (hstar : c ≠ '*') :
    isNameChar c = false ∧ isNumberChar c = false ∧ isConstantChar c = false ∧ c ≠ '-' := by
  have hends := of_isPunct (p := fun c => c == '*' ||
    !isNameChar c && !isNumberChar c && !isConstantChar c && c != '-') (by decide) h
  simpa [hstar, and_assoc] using hends

theorem Stops.any_eq_false {rest : List Char} (h : Stops rest) {p : Char → Bool}
    (hp : ∀ c, isPunct c = true → c ≠ '*' → p c = false) : rest.head?.any p = false := by
  cases rest with
  | nil => rfl
  | cons c rest =>
    obtain ⟨hpunct, hstar⟩ := h.1 c rfl
    exact hp c hpunct hstar

theorem takeWhile_append {rest : List Char} {p : Char → Bool} (h : rest.head?.any p = false)
    (cs : List Char) :
    (cs ++ rest).takeWhile p = cs.takeWhile p := by
  induction cs with
  | nil =>
    cases rest with
    | nil => rfl
    | cons c rest =>
      have hc : p c = false := by simpa using h
      exact List.takeWhile_cons_of_neg (by simp [hc])
  | cons c cs ih => simp only [List.cons_append, List.takeWhile_cons, ih]

theorem head?_any_append {rest : List Char} {p : Char → Bool} (h : rest.head?.any p = false)
    (cs : List Char) :
    (cs ++ rest).head?.any p = cs.head?.any p := by
  cases cs with
  | nil => exact h
  | cons c cs => rfl

theorem nameAt_append {rest : List Char} (h : Stops rest) (begun : Bool) (cs : List Char) :
    nameAt begun (cs ++ rest) = nameAt begun cs := by
  induction cs generalizing begun with
  | nil =>
    cases rest with
    | nil => rfl
    | cons c rest =>
      obtain ⟨hpunct, hstar⟩ := h.1 c rfl
      obtain ⟨hname, -, -, hhyphen⟩ := ends_of_isPunct hpunct hstar
      simp [nameAt, hname, hhyphen]
  | cons c cs ih =>
    have hnext : (cs ++ rest).head?.any isAsciiAlphanumeric =
        cs.head?.any isAsciiAlphanumeric := by
      refine head?_any_append (h.any_eq_false fun c hpunct hstar => ?_) cs
      have hnumber := (ends_of_isPunct hpunct hstar).2.1
      simp only [isNumberChar, Bool.or_eq_false_iff] at hnumber
      exact hnumber.1.1
    simp only [List.cons_append, nameAt, hnext, ih]

/-- A text that is nothing but a class constant, or empty, stays so before the end of a token. -/
theorem constantAt_append {rest cs : List Char} (h : Stops rest) (hcs : constantAt cs = cs) :
    constantAt (cs ++ rest) = cs := by
  unfold constantAt at hcs
  split at hcs
  · rename_i cs
    have hends : rest.head?.any isConstantChar = false :=
      h.any_eq_false fun c hpunct hstar => (ends_of_isPunct hpunct hstar).2.2.1
    simp only [List.cons_append, constantAt, takeWhile_append hends]
    exact hcs
  · rw [← hcs]
    exact h.2

/-- The rest of a quoted text is closed by its quote, and by no earlier one. -/
def closes (quote : Char) : List Char → Bool
  | [] => false
  | '\\' :: _ :: cs => closes quote cs
  | c :: cs => if c == quote then cs.isEmpty else closes quote cs

theorem quotedAt_cons {quote c : Char} (hc : c ≠ '\\') (cs : List Char) :
    quotedAt quote (c :: cs) = if c == quote then [c] else c :: quotedAt quote cs := by
  rw [quotedAt.eq_3]
  rintro c' cs' rfl
  exact absurd rfl hc

theorem quotedAt_append {quote : Char} {cs : List Char} (hquote : quote ≠ '\\')
    (h : closes quote cs = true) (rest : List Char) : quotedAt quote (cs ++ rest) = cs := by
  fun_induction closes quote cs with
  | case1 => simp at h
  | case2 c cs ih => simp only [List.cons_append, quotedAt, ih h]
  | case3 c cs _ hc =>
    obtain rfl : c = quote := by simpa using hc
    obtain rfl : cs = [] := by simpa using h
    rw [List.cons_append, quotedAt_cons hquote, if_pos (beq_self_eq_true c)]
  | case4 c cs hne hc ih =>
    have hc' : c ≠ '\\' := by
      rintro rfl
      cases cs with
      | nil => simp [closes] at h
      | cons c' cs => exact hne c' cs rfl rfl
    rw [List.cons_append, quotedAt_cons hc', if_neg hc, ih h]

theorem isPrefixOf_dots_append {rest : List Char} (h : Stops rest) (cs : List Char) :
    ['.', '.'].isPrefixOf (cs ++ rest) = ['.', '.'].isPrefixOf cs := by
  have hdot : rest.head?.any (· == '.') = false := by
    refine h.any_eq_false fun c hpunct hstar => ?_
    have hnumber := (ends_of_isPunct hpunct hstar).2.1
    simp only [isNumberChar, Bool.or_eq_false_iff] at hnumber
    exact hnumber.1.2
  match cs, rest with
  | [], [] => rfl
  | [], c :: rest => simp_all [List.isPrefixOf, Bool.beq_comm]
  | [a], [] => rfl
  | [a], c :: rest => simp_all [List.isPrefixOf, Bool.beq_comm]
  | a :: b :: cs, rest => rfl

/-- A text that is nothing but a name and the class constant attached to it stays so before the end
of a token. -/
theorem name_constant_append {cs rest : List Char} (h : Stops rest)
    (hcs : nameAt false cs ++ constantAt (cs.drop (nameAt false cs).length) = cs) :
    nameAt false (cs ++ rest) ++
      constantAt ((cs ++ rest).drop (nameAt false (cs ++ rest)).length) = cs := by
  have hdrop := congrArg (List.drop (nameAt false cs).length) hcs
  rw [List.drop_left] at hdrop
  have hlen : (nameAt false cs).length ≤ cs.length := (isPrefix_nameAt false cs).length_le
  rw [nameAt_append h, List.drop_append_of_le_length hlen, constantAt_append h hdrop, ← hdrop]
  exact hcs

/-- A token that takes up the whole of its text takes no more when something else follows, if a
quoted text is closed. -/
theorem tokenAt_append {c : Char} {cs rest : List Char} (h : Stops rest)
    (hwhole : (tokenAt c cs).text.toList = c :: cs)
    (hclosed : c = '\'' ∨ c = '"' → closes c cs = true) :
    tokenAt c (cs ++ rest) = tokenAt c cs := by
  have hnumber : ∀ c, isPunct c = true → c ≠ '*' → isNumberChar c = false :=
    fun c hpunct hstar => (ends_of_isPunct hpunct hstar).2.1
  have hdigit : (cs ++ rest).head?.any Char.isDigit = cs.head?.any Char.isDigit := by
    refine head?_any_append (h.any_eq_false fun c hpunct hstar => ?_) cs
    have hc := hnumber c hpunct hstar
    simp only [isNumberChar, isAsciiAlphanumeric, Char.isAlphanum, Bool.or_eq_false_iff] at hc
    exact hc.1.1.2
  unfold tokenAt at hwhole ⊢
  rw [isPrefixOf_dots_append h, hdigit]
  by_cases hdots : (c == '.' && ['.', '.'].isPrefixOf cs) = true
  · rw [if_pos hdots, if_pos hdots]
  rw [if_neg hdots] at hwhole ⊢
  rw [if_neg hdots]
  -- a name ends at the mark, and so does the class constant attached to it
  by_cases hstart : isNameStart c = true
  · rw [if_pos hstart] at hwhole ⊢
    rw [if_pos hstart]
    simp only [Token.text, String.toList_ofList] at hwhole
    have happend := name_constant_append h hwhole
    rw [List.cons_append] at happend
    dsimp only
    rw [happend, hwhole]
  rw [if_neg hstart, if_neg hstart]
  by_cases hdollar : (c == '$') = true
  · rw [if_pos hdollar, if_pos hdollar, nameAt_append h]
  rw [if_neg hdollar, if_neg hdollar]
  by_cases hdig : (c.isDigit || (c == '-' && cs.head?.any Char.isDigit)) = true
  · rw [if_pos hdig, if_pos hdig, takeWhile_append (h.any_eq_false hnumber)]
  rw [if_neg hdig, if_neg hdig]
  -- a quoted text ends at its closing quote, whatever comes then
  by_cases hquote : (c == '\'' || c == '"') = true
  · have hquote' : c = '\'' ∨ c = '"' := by simpa using hquote
    have hne : c ≠ '\\' := by rcases hquote' with rfl | rfl <;> decide
    have hself := quotedAt_append hne (hclosed hquote') []
    rw [List.append_nil] at hself
    rw [if_pos hquote, if_pos hquote, quotedAt_append hne (hclosed hquote'), hself]
  · rw [if_neg hquote, if_neg hquote]

/-! ## Texts that are one token -/

/-- The text of the token is that token and nothing else. -/
def Whole (tok : Token) : Prop := tokensOf tok.text.toList = [tok]

instance (tok : Token) : Decidable (Whole tok) := inferInstanceAs (Decidable (_ = _))

theorem length_le_of_mem_tokensOf {tok : Token} {input : List Char} (h : tok ∈ tokensOf input) :
    tok.text.toList.length ≤ input.length := by
  match input with
  | [] => simp at h
  | c :: cs =>
    by_cases hc : isBlank c = true
    · rw [tokensOf_blank hc] at h
      exact Nat.le_succ_of_le (length_le_of_mem_tokensOf h)
    rw [tokensOf_cons (by simpa using hc), List.mem_cons] at h
    rcases h with rfl | h
    · exact (isPrefix_text_tokenAt c cs).length_le
    · have hrest := length_le_of_mem_tokensOf h
      rw [List.length_drop] at hrest
      omega
termination_by input.length
decreasing_by
  · simp
  · have hpos := text_tokenAt_pos c cs
    rw [List.length_drop, List.length_cons]
    omega

/-- A token whose text is that token is what stands at the start of its text. -/
theorem Whole.tokenAt_eq {tok : Token} (h : Whole tok) :
    ∃ c cs, tok.text.toList = c :: cs ∧ isBlank c = false ∧ tokenAt c cs = tok := by
  unfold Whole at h
  cases htext : tok.text.toList with
  | nil => simp [htext] at h
  | cons c cs =>
    rw [htext] at h
    by_cases hc : isBlank c = true
    · -- the token would have to fit into what is left after the blank
      rw [tokensOf_blank hc] at h
      have hlen := length_le_of_mem_tokensOf (h ▸ List.mem_singleton_self tok)
      rw [htext, List.length_cons] at hlen
      omega
    · have hc' : isBlank c = false := by simpa using hc
      rw [tokensOf_cons hc', List.cons.injEq] at h
      exact ⟨c, cs, rfl, hc', h.1⟩

/-- Whether the text is one quoted text that is closed by its quote. -/
def isQuoted (text : String) : Bool :=
  match text.toList with
  | [] => false
  | quote :: cs => (quote == '\'' || quote == '"') && closes quote cs

/-! ## Texts that keep their tokens -/

/-- The tokens of the text are `toks`, whatever the text is followed by. -/
def Spells (text : List Char) (toks : List Token) : Prop :=
  ∀ rest, Stops rest → tokensOf (text ++ rest) = toks ++ tokensOf rest

theorem Spells.tokensOf_eq {text : List Char} {toks : List Token} (h : Spells text toks) :
    tokensOf text = toks := by
  simpa using h [] stops_nil

theorem spells_nil : Spells [] [] := fun _ _ => rfl

theorem spells_of_tokenAt {c : Char} {cs : List Char} (hblank : isBlank c = false)
    (hwhole : (tokenAt c cs).text.toList = c :: cs)
    (hclosed : c = '\'' ∨ c = '"' → closes c cs = true) :
    Spells (c :: cs) [tokenAt c cs] := by
  intro rest hrest
  rw [List.cons_append, tokensOf_cons hblank, tokenAt_append hrest hwhole hclosed, hwhole,
    ← List.cons_append, List.drop_left]
  rfl

/-- One text after another, if the second one starts where the first one's last token ends. -/
theorem Spells.append {text text' : List Char} {toks toks' : List Token} (h : Spells text toks)
    (h' : Spells text' toks') (hstops : ∀ rest, Stops rest → Stops (text' ++ rest)) :
    Spells (text ++ text') (toks ++ toks') := by
  intro rest hrest
  rw [List.append_assoc, h _ (hstops rest hrest), h' rest hrest, List.append_assoc]

theorem tokenAt_punct {c : Char} (h : isPunct c = true) (cs : List Char) :
    tokenAt c cs = .punct c := by
  have hothers := of_isPunct (p := fun c => c != '.' && !isNameStart c && c != '$' &&
    !c.isDigit && c != '-' && c != '\'' && c != '"') (by decide) h
  simp only [Bool.and_eq_true, bne_iff_ne, Bool.not_eq_eq_eq_not, Bool.not_true] at hothers
  obtain ⟨⟨⟨⟨⟨⟨hdot, hstart⟩, hdollar⟩, hdigit⟩, hhyphen⟩, hsingle⟩, hdouble⟩ := hothers
  simp [tokenAt, hdot, hstart, hdollar, hdigit, hhyphen, hsingle, hdouble, h]

theorem isBlank_of_isPunct {c : Char} (h : isPunct c = true) : isBlank c = false := by
  simpa using of_isPunct (p := fun c => !isBlank c) (by decide) h

theorem Spells.punct {c : Char} {text : List Char} {toks : List Token} (hc : isPunct c = true)
    (h : Spells text toks) : Spells (c :: text) (.punct c :: toks) := by
  intro rest hrest
  have hlen : (Token.punct c).text.toList.length = 1 := by simp [Token.text]
  rw [List.cons_append, tokensOf_cons (isBlank_of_isPunct hc), tokenAt_punct hc, hlen,
    List.drop_one, List.tail_cons, h rest hrest, List.cons_append]

theorem Spells.blank {text : List Char} {toks : List Token} (h : Spells text toks) :
    Spells (' ' :: text) toks := by
  intro rest hrest
  rw [List.cons_append, tokensOf_blank rfl]
  exact h rest hrest

theorem stops_of_head {c : Char} {rest : List Char} (hc : isPunct c = true) (hstar : c ≠ '*')
    (hconst : constantAt (c :: rest) = []) : Stops (c :: rest) := by
  refine ⟨?_, hconst⟩
  intro d hd
  obtain rfl : c = d := by simpa using hd
  exact ⟨hc, hstar⟩

/-- The punctuation marks behind which nothing can be part of a token before them. -/
def isStop (c : Char) : Bool := isPunct c && c != '*' && c != ':'

theorem isPunct_of_isStop {c : Char} (h : isStop c = true) : isPunct c = true := by
  simp only [isStop, Bool.and_eq_true] at h
  exact h.1.1

theorem stops_cons {c : Char} (h : isStop c = true) (rest : List Char) : Stops (c :: rest) := by
  simp only [isStop, Bool.and_eq_true, bne_iff_ne] at h
  obtain ⟨⟨hc, hstar⟩, hcolon⟩ := h
  refine stops_of_head hc hstar ?_
  unfold constantAt
  split
  · rename_i heq
    exact absurd (List.cons.inj heq).1 hcolon
  · rfl

theorem stops_colon (rest : List Char) : Stops (':' :: ' ' :: rest) :=
  stops_of_head (by decide) (by decide) rfl

theorem tokenAt_quote {c : Char} (hc : c = '\'' ∨ c = '"') (cs : List Char) :
    tokenAt c cs = .quoted (.ofList (c :: quotedAt c cs)) := by
  rcases hc with rfl | rfl
  · have hstart : isNameStart '\'' = false := by decide
    simp [tokenAt, hstart]
  · have hstart : isNameStart '"' = false := by decide
    simp [tokenAt, hstart]

/-- A name, a variable or a number that is one whole token. -/
theorem Whole.spells {tok : Token} (h : Whole tok) (hquote : ∀ text, tok ≠ .quoted text) :
    Spells tok.text.toList [tok] := by
  obtain ⟨c, cs, htext, hblank, htok⟩ := h.tokenAt_eq
  rw [htext, ← htok]
  refine spells_of_tokenAt hblank (by rw [htok, htext]) ?_
  intro hc
  rw [tokenAt_quote hc] at htok
  exact absurd htok.symm (hquote _)

theorem spells_quoted {text : String} (h : isQuoted text = true) :
    Spells text.toList [.quoted text] := by
  unfold isQuoted at h
  cases htext : text.toList with
  | nil => simp [htext] at h
  | cons quote cs =>
    simp only [htext, Bool.and_eq_true, Bool.or_eq_true, beq_iff_eq] at h
    obtain ⟨hquote, hcloses⟩ := h
    have hne : quote ≠ '\\' := by rcases hquote with rfl | rfl <;> decide
    have hblank : isBlank quote = false := by rcases hquote with rfl | rfl <;> decide
    have hself := quotedAt_append hne hcloses []
    rw [List.append_nil] at hself
    have htok : tokenAt quote cs = .quoted text := by
      rw [tokenAt_quote hquote, hself, ← htext, String.ofList_toList]
    rw [← htok]
    exact spells_of_tokenAt hblank (by rw [htok]; exact htext) fun _ => hcloses

/-! ## Letter case -/

/-- The letters that have another lower case form. -/
def capitals : List Char := "ABCDEFGHIJKLMNOPQRSTUVWXYZ".toList

theorem toLower_eq_or (c : Char) : c.toLower = c ∨ c ∈ capitals := by
  unfold Char.toLower
  split
  · rename_i h
    right
    have hall : ∀ n < 26, Char.ofNat (65 + n) ∈ capitals := by decide
    have hlow : 65 ≤ c.toNat := h.1
    have hhigh : c.toNat ≤ 90 := h.2
    have hmem := hall (c.toNat - 65) (by omega)
    rw [Nat.add_sub_cancel' hlow, Char.ofNat_toNat] at hmem
    exact hmem
  · exact Or.inl rfl

/-- A class of characters that does not tell a capital from its lower case form. -/
theorem apply_toLower {p : Char → Bool} (hp : capitals.all (fun c => p c.toLower == p c) = true)
    (c : Char) :
    p c.toLower = p c := by
  rcases toLower_eq_or c with h | h
  · rw [h]
  · exact beq_iff_eq.mp (List.all_eq_true.mp hp c h)

theorem nameAt_map_toLower (begun : Bool) (cs : List Char) :
    nameAt begun (cs.map Char.toLower) = (nameAt begun cs).map Char.toLower := by
  induction cs generalizing begun with
  | nil => rfl
  | cons c cs ih =>
    have hname : isNameChar c.toLower = isNameChar c := apply_toLower (by decide) c
    have hhyphen : (c.toLower == '-') = (c == '-') := apply_toLower (p := (· == '-')) (by decide) c
    have hnext : (cs.map Char.toLower).head?.any isAsciiAlphanumeric =
        cs.head?.any isAsciiAlphanumeric := by
      cases cs with
      | nil => rfl
      | cons d cs => exact apply_toLower (p := isAsciiAlphanumeric) (by decide) d
    simp only [List.map_cons, nameAt, hname, hhyphen, hnext, ih]
    split
    · rfl
    split
    · rfl
    · rfl

theorem whole_ident {text : String} {c : Char} {cs : List Char} (htext : text.toList = c :: cs)
    (hblank : isBlank c = false) (hstart : isNameStart c = true)
    (hname : nameAt false (c :: cs) = c :: cs) :
    Whole (.ident text) := by
  have hdot : c ≠ '.' := by rintro rfl; exact absurd hstart (by decide)
  have htok : tokenAt c cs = .ident text := by
    unfold tokenAt
    rw [if_neg (by simp [hdot]), if_pos hstart]
    dsimp only
    rw [hname, List.drop_length, constantAt.eq_2 [] (by simp), List.append_nil, ← htext,
      String.ofList_toList]
  have hlen : (Token.ident text).text.toList = c :: cs := htext
  unfold Whole
  rw [hlen, tokensOf_cons hblank, htok, hlen, List.drop_length, tokensOf_nil]

/-- The names that open a shape or a callable signature are one token in any letter case. -/
theorem whole_of_base {base : String} (h : lower base ∈ shapeBases ++ callableBases) :
    Whole (.ident base) := by
  have hall : ∀ b ∈ shapeBases ++ callableBases, nameAt false b.toList = b.toList ∧
      b.toList.head?.any isNameStart = true ∧ b.toList.head?.any isBlank = false := by decide
  obtain ⟨hname, hstart, hblank⟩ := hall _ h
  rw [lower, String.toList_ofList] at hname hstart hblank
  cases htext : base.toList with
  | nil => simp [htext] at hstart
  | cons c cs =>
    rw [htext] at hname hstart hblank
    rw [nameAt_map_toLower] at hname
    have hlen := congrArg List.length hname
    rw [List.length_map, List.length_map] at hlen
    refine whole_ident htext ?_ ?_ ((isPrefix_nameAt false (c :: cs)).eq_of_length hlen)
    · rw [← apply_toLower (p := isBlank) (by decide) c]
      exact hblank
    · rw [← apply_toLower (p := isNameStart) (by decide) c]
      exact hstart

/-! ## After the last token -/

/-- The last token of a scan ends before nothing but white space. -/
theorem scan_last {steps : Nat} (pos : Nat) {input : List Char} (h : input.length ≤ steps) :
    ∃ front tail, input = front ++ tail ∧ (∀ c ∈ tail, isBlank c = true) ∧
      (scan steps pos input = [] → front = []) ∧
      ∀ t ∈ (scan steps pos input).getLast?, t.stop = pos + bytes front := by
  induction steps generalizing pos input with
  | zero =>
    obtain rfl := List.length_eq_zero_iff.mp (Nat.le_zero.mp h)
    exact ⟨[], [], rfl, by simp, fun _ => rfl, by simp [scan]⟩
  | succ steps ih =>
    cases input with
    | nil => exact ⟨[], [], rfl, by simp, fun _ => rfl, by simp [scan]⟩
    | cons c cs =>
      simp only [List.length_cons, Nat.add_le_add_iff_right] at h
      simp only [scan]
      split
      · -- a blank belongs to what is left if no token follows it, else to what stands before the
        -- last one's end
        rename_i hc
        obtain ⟨front, tail, rfl, htail, hnil, hlast⟩ := ih (pos + c.utf8Size) h
        by_cases hscan : scan steps (pos + c.utf8Size) (front ++ tail) = []
        · obtain rfl := hnil hscan
          refine ⟨[], c :: tail, rfl, List.forall_mem_cons.mpr ⟨hc, htail⟩, fun _ => rfl, ?_⟩
          rw [hscan]
          nofun
        · refine ⟨c :: front, tail, rfl, htail, fun h => absurd h hscan, ?_⟩
          intro t ht
          rw [hlast t ht, bytes_cons, Nat.add_assoc]
      · obtain ⟨after, hafter⟩ := isPrefix_text_tokenAt c cs
        have hpos := text_tokenAt_pos c cs
        have hdrop : (c :: cs).drop (tokenAt c cs).text.toList.length = after := by
          rw [← hafter, List.drop_left]
        have hlen := congrArg List.length hafter
        rw [List.length_append, List.length_cons] at hlen
        have hle : after.length ≤ steps := by omega
        rw [hdrop]
        obtain ⟨front, tail, rfl, htail, hnil, hlast⟩ :=
          ih (pos + bytes (tokenAt c cs).text.toList) hle
        refine ⟨(tokenAt c cs).text.toList ++ front, tail, ?_, htail, by simp, ?_⟩
        · rw [List.append_assoc]
          exact hafter.symm
        · intro t ht
          rw [bytes_append]
          cases hscan : scan steps (pos + bytes (tokenAt c cs).text.toList) (front ++ tail) with
          | nil =>
            obtain rfl := hnil hscan
            rw [hscan, List.getLast?_singleton, Option.mem_some_iff] at ht
            rw [← ht]
            rfl
          | cons l ls =>
            rw [hscan, List.getLast?_cons_cons] at ht
            rw [hlast t (hscan ▸ ht), Nat.add_assoc]

theorem trim_of_blank {cs : List Char} (h : ∀ c ∈ cs, isBlank c = true) : trim cs = [] := by
  have hdrop : cs.dropWhile isBlank = [] := List.dropWhile_eq_nil_iff.mpr h
  rw [trim, stripWhile, hdrop]
  rfl

/-- The offset after the tokens used up is where the last of them ends. -/
theorem consumed_append {used : List Lexeme} {n : Nat} (hnil : used = [] → n = 0)
    (hlast : ∀ t ∈ used.getLast?, t.stop = n) (left : List Lexeme) :
    consumed (used ++ left) left = n := by
  unfold consumed
  rw [List.length_append, Nat.add_sub_cancel, List.take_left]
  cases hl : used.getLast? with
  | none => exact (hnil (List.getLast?_eq_none_iff.mp hl)).symm
  | some t => exact hlast t hl

/-- Behind the last token there is white space only. -/
theorem trim_consumed (input : List Char) :
    trim (dropBytes (consumed (lexemes input) []) input) = [] := by
  obtain ⟨front, tail, hinput, htail, hnil, hlast⟩ := scan_last 0 (Nat.le_refl input.length)
  simp only [Nat.zero_add] at hlast
  have hconsumed := consumed_append (fun hempty => by rw [hnil hempty]; rfl) hlast []
  rw [List.append_nil] at hconsumed
  have hstop : consumed (lexemes input) [] = bytes front := hconsumed
  rw [hstop, hinput, dropBytes_append]
  exact trim_of_blank htail

/-- A text all of whose tokens the reader of unions takes is read as a whole. -/
theorem read_of_readUnion {input : List Char} {t : TypeExpr}
    (h : readUnion (readingDepth (lexemes input)) (lexemes input) = .ok (t, [])) :
    read input = .ok t := by
  unfold read readPrefix
  simp only [h, trim_consumed, bind, Except.bind, pure, Except.pure]

end ClassDocs.TypeExpr

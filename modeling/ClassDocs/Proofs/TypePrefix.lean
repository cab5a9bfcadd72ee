import ClassDocs.Proofs.TypePositions
import Mathlib.Data.List.Infix

/-!
# The type at the start of a text

`parsePrefix` takes the longest type at the start of a text: what it takes is a type by itself, and
no longer piece of the text is one, white space behind the type aside (`parsePrefix_longest`).

Two facts about tokens carry this over from tokens to texts. Where a token ends depends on the
character behind it at most, and the end of the text does as well as that character
(`tokenAt_of_shorter`). And a token that is cut inside is a token of the same kind, or its first
character is none at all (`tokenAt_of_cut`).
-/

namespace ClassDocs.TypeExpr

open ClassDocs.Text

/-! ## A token in a shorter text -/

/-- What is taken off the front stays the same if the text ends anywhere behind it. -/
def Steady (take : List Char → List Char) : Prop :=
  ∀ ⦃cs' cs : List Char⦄, cs' <+: cs → (take cs).length ≤ cs'.length → take cs' = take cs

theorem steady_nil {take : List Char → List Char} (hnil : take [] = []) {cs : List Char}
    (h : (take cs).length ≤ ([] : List Char).length) : take [] = take cs := by
  rw [hnil, List.length_eq_zero_iff.mp (Nat.le_zero.mp h)]

theorem steady_takeWhile (p : Char → Bool) : Steady (List.takeWhile p) := by
  intro cs'
  induction cs' with
  | nil =>
    intro cs _ hlen
    exact steady_nil rfl hlen
  | cons c cs' ih =>
    intro cs hpre hlen
    obtain ⟨rest, rfl, hrest⟩ := List.cons_prefix_iff.mp hpre
    cases hc : p c with
    | true =>
      simp only [List.takeWhile_cons, hc, if_true, List.length_cons, Nat.add_le_add_iff_right]
        at hlen ⊢
      rw [ih hrest hlen]
    | false => simp only [List.takeWhile_cons, hc, Bool.false_eq_true, if_false]

theorem isNameChar_of_isAsciiAlphanumeric {c : Char} (h : isAsciiAlphanumeric c = true) :
    isNameChar c = true := by
  have hascii : c.toNat < 128 := by
    have hranges : ((decide ('A'.val ≤ c.val ∧ c.val ≤ 'Z'.val) ||
        decide ('a'.val ≤ c.val) && decide (c.val ≤ 'z'.val)) ||
        decide ('0'.val ≤ c.val) && decide (c.val ≤ '9'.val)) = true := h
    simp only [Bool.or_eq_true, Bool.and_eq_true, decide_eq_true_eq, UInt32.le_iff_toNat_le]
      at hranges
    have hval : c.val.toNat = c.toNat := rfl
    simp only [hval] at hranges
    simp at hranges
    omega
  rw [isNameChar, if_pos hascii, h, Bool.true_or, Bool.true_or]

theorem nameAt_cons_cons {begun : Bool} {c : Char} (hname : isNameChar c = false) (d : Char)
    (cs : List Char) :
    nameAt begun (c :: d :: cs) =
      if c == '-' && begun && isAsciiAlphanumeric d then c :: nameAt begun (d :: cs) else [] := by
  rw [nameAt, hname]
  rfl

theorem steady_nameAt (begun : Bool) : Steady (nameAt begun) := by
  intro cs'
  induction cs' generalizing begun with
  | nil =>
    intro cs _ hlen
    exact steady_nil rfl hlen
  | cons c cs' ih =>
    intro cs hpre hlen
    obtain ⟨rest, rfl, hrest⟩ := List.cons_prefix_iff.mp hpre
    by_cases hname : isNameChar c = true
    · simp only [nameAt, hname, if_true, List.length_cons, Nat.add_le_add_iff_right] at hlen ⊢
      rw [ih true hrest hlen]
    rw [Bool.not_eq_true] at hname
    cases rest with
    | nil => rw [List.prefix_nil.mp hrest]
    | cons d rest =>
      rw [nameAt_cons_cons hname] at hlen ⊢
      cases cs' with
      | nil =>
        -- a hyphen is taken together with the letter behind it, for which there is no room
        have hend : nameAt begun [c] = [] := by simp [nameAt, hname]
        rw [hend]
        split at hlen
        · rename_i hhyphen
          have hd := isNameChar_of_isAsciiAlphanumeric (Bool.and_eq_true_iff.mp hhyphen).2
          simp [nameAt, hd] at hlen
        · rename_i hhyphen
          rw [if_neg hhyphen]
      | cons d' cs' =>
        obtain rfl := (List.cons_prefix_cons.mp hrest).1
        rw [nameAt_cons_cons hname]
        split at hlen
        · rw [List.length_cons, List.length_cons, Nat.add_le_add_iff_right] at hlen
          rw [ih begun hrest hlen]
        · rename_i hhyphen
          rw [if_neg hhyphen, if_neg hhyphen]

theorem steady_constantAt : Steady constantAt := by
  intro cs' cs hpre hlen
  by_cases hcolons : [':', ':'] <+: cs
  · obtain ⟨rest, rfl⟩ := hcolons
    match cs' with
    | [] => simp [constantAt] at hlen
    | [_] => simp [constantAt] at hlen
    | c :: d :: cs' =>
      simp only [List.cons_append, List.nil_append, List.cons_prefix_cons] at hpre
      obtain ⟨rfl, rfl, hrest⟩ := hpre
      simp only [List.cons_append, List.nil_append, constantAt, List.length_cons,
        Nat.add_le_add_iff_right] at hlen ⊢
      rw [steady_takeWhile isConstantChar hrest hlen]
  · have hnone : ∀ ds : List Char, ¬ [':', ':'] <+: ds → constantAt ds = [] := by
      intro ds hds
      unfold constantAt
      split
      · exact absurd ⟨_, rfl⟩ hds
      · rfl
    rw [hnone cs hcolons, hnone cs' fun h => hcolons (h.trans hpre)]

theorem steady_quotedAt (quote : Char) : Steady (quotedAt quote) := by
  intro cs' cs hpre hlen
  fun_induction quotedAt quote cs generalizing cs' with
  | case1 => rw [List.prefix_nil.mp hpre, quotedAt]
  | case2 c cs ih =>
    rcases cs' with _ | ⟨b, _ | ⟨d, cs'⟩⟩
    · simp at hlen
    · simp at hlen
    · simp only [List.cons_prefix_cons] at hpre
      obtain ⟨rfl, rfl, hrest⟩ := hpre
      simp only [List.length_cons, Nat.add_le_add_iff_right] at hlen
      rw [quotedAt, ih hrest hlen]
  | case3 c cs hne hquote =>
    cases cs' with
    | nil => simp at hlen
    | cons c' cs' =>
      obtain ⟨rfl, hrest⟩ := List.cons_prefix_cons.mp hpre
      rw [quotedAt.eq_3 _ _ _ ?_, if_pos hquote]
      rintro d ds rfl rfl
      obtain ⟨rest, rfl, -⟩ := List.cons_prefix_iff.mp hrest
      exact hne d rest rfl rfl
  | case4 c cs hne hquote ih =>
    cases cs' with
    | nil => simp at hlen
    | cons c' cs' =>
      obtain ⟨rfl, hrest⟩ := List.cons_prefix_cons.mp hpre
      rw [List.length_cons, List.length_cons, Nat.add_le_add_iff_right] at hlen
      rw [quotedAt.eq_3 _ _ _ ?_, if_neg hquote, ih hrest hlen]
      rintro d ds rfl rfl
      obtain ⟨rest, rfl, -⟩ := List.cons_prefix_iff.mp hrest
      exact hne d rest rfl rfl

/-- A name and the class constant attached to it. -/
theorem steady_name_constant :
    Steady fun cs => nameAt false cs ++ constantAt (cs.drop (nameAt false cs).length) := by
  intro cs' cs hpre hlen
  rw [List.length_append] at hlen
  have hname := steady_nameAt false hpre (by omega)
  have hdrop : cs'.drop (nameAt false cs).length <+: cs.drop (nameAt false cs).length :=
    hpre.drop _
  have hconst := steady_constantAt hdrop (by rw [List.length_drop]; omega)
  dsimp only
  rw [hname, hconst]

theorem any_head?_of_shorter {p : Char → Bool} {cs' cs : List Char} (hpre : cs' <+: cs)
    (h : cs'.head?.any p = true) : cs.head?.any p = true := by
  cases cs' with
  | nil => simp at h
  | cons c cs' =>
    obtain ⟨rest, rfl⟩ := hpre
    exact h

theorem not_dots_of_shorter {c : Char} {cs' cs : List Char} (hpre : cs' <+: cs)
    (h : ¬ (c == '.' && ['.', '.'].isPrefixOf cs) = true) :
    ¬ (c == '.' && ['.', '.'].isPrefixOf cs') = true := by
  rw [Bool.and_eq_true, List.isPrefixOf_iff_prefix] at h ⊢
  exact fun h' => h ⟨h'.1, h'.2.trans hpre⟩

theorem not_number_of_shorter {c : Char} {cs' cs : List Char} (hpre : cs' <+: cs)
    (h : ¬ (c.isDigit || (c == '-' && cs.head?.any Char.isDigit)) = true) :
    ¬ (c.isDigit || (c == '-' && cs'.head?.any Char.isDigit)) = true := by
  rw [Bool.or_eq_true, Bool.and_eq_true] at h ⊢
  exact fun h' => h (h'.imp_right (And.imp_right (any_head?_of_shorter hpre)))

theorem isNumberChar_of_isDigit {c : Char} (h : c.isDigit = true) : isNumberChar c = true := by
  simp [isNumberChar, isAsciiAlphanumeric, Char.isAlphanum, h]

/-- A digit that makes a number of what stands before it is a part of that number. -/
theorem any_isDigit_of_shorter {cs' cs : List Char} (hpre : cs' <+: cs)
    (hlen : (cs.takeWhile isNumberChar).length ≤ cs'.length)
    (h : cs.head?.any Char.isDigit = true) :
    cs'.head?.any Char.isDigit = true := by
  cases cs with
  | nil => simp at h
  | cons d cs =>
    have hd : d.isDigit = true := h
    cases cs' with
    | nil => simp [isNumberChar_of_isDigit hd] at hlen
    | cons d' cs' =>
      obtain rfl := (List.cons_prefix_cons.mp hpre).1
      exact hd

/-- A token for which the shorter text has room is a token of that text too. -/
theorem tokenAt_of_shorter {c : Char} {cs' cs : List Char} (hpre : cs' <+: cs)
    (hlen : (tokenAt c cs).text.toList.length ≤ cs'.length + 1) :
    tokenAt c cs' = tokenAt c cs := by
  unfold tokenAt at hlen ⊢
  by_cases hdots : (c == '.' && ['.', '.'].isPrefixOf cs) = true
  · rw [if_pos hdots] at hlen ⊢
    rw [Bool.and_eq_true, List.isPrefixOf_iff_prefix] at hdots
    have hdots' : ['.', '.'] <+: cs' :=
      List.prefix_of_prefix_length_le hdots.2 hpre (Nat.le_of_add_le_add_right hlen)
    rw [if_pos (by rw [Bool.and_eq_true, List.isPrefixOf_iff_prefix]; exact ⟨hdots.1, hdots'⟩)]
  rw [if_neg hdots] at hlen ⊢
  rw [if_neg (not_dots_of_shorter hpre hdots)]
  by_cases hstart : isNameStart c = true
  · rw [if_pos hstart] at hlen ⊢
    rw [if_pos hstart]
    simp only [Token.text, String.toList_ofList] at hlen
    have hsame := steady_name_constant ((List.prefix_cons_inj c).mpr hpre) hlen
    dsimp only at hsame ⊢
    rw [hsame]
  rw [if_neg hstart] at hlen ⊢
  rw [if_neg hstart]
  by_cases hdollar : (c == '$') = true
  · rw [if_pos hdollar] at hlen ⊢
    simp only [Token.text, String.toList_ofList, List.length_cons, Nat.add_le_add_iff_right]
      at hlen
    rw [if_pos hdollar, steady_nameAt false hpre hlen]
  rw [if_neg hdollar] at hlen ⊢
  rw [if_neg hdollar]
  by_cases hnumber : (c.isDigit || (c == '-' && cs.head?.any Char.isDigit)) = true
  · rw [if_pos hnumber] at hlen ⊢
    simp only [Token.text, String.toList_ofList, List.length_cons, Nat.add_le_add_iff_right]
      at hlen
    have hnumber' : (c.isDigit || (c == '-' && cs'.head?.any Char.isDigit)) = true := by
      rw [Bool.or_eq_true, Bool.and_eq_true] at hnumber ⊢
      exact hnumber.imp_right (And.imp_right (any_isDigit_of_shorter hpre hlen))
    rw [if_pos hnumber', steady_takeWhile isNumberChar hpre hlen]
  rw [if_neg hnumber] at hlen ⊢
  rw [if_neg (not_number_of_shorter hpre hnumber)]
  by_cases hquote : (c == '\'' || c == '"') = true
  · rw [if_pos hquote] at hlen ⊢
    simp only [Token.text, String.toList_ofList, List.length_cons, Nat.add_le_add_iff_right]
      at hlen
    rw [if_pos hquote, steady_quotedAt c hpre hlen]
  · rw [if_neg hquote, if_neg hquote]

/-- A token for which the shorter text has no room leaves a token of its kind, or none. -/
theorem tokenAt_of_cut {c : Char} {cs' cs : List Char} (hpre : cs' <+: cs)
    (hlen : cs'.length + 1 < (tokenAt c cs).text.toList.length) :
    tokenAt c cs' = .other c ∨ (∀ d, tokenAt c cs' ≠ .punct d) ∧
      ((tokenAt c cs).marksReference = true → (tokenAt c cs').marksReference = true) := by
  unfold tokenAt at hlen ⊢
  by_cases hdots : (c == '.' && ['.', '.'].isPrefixOf cs) = true
  · -- one or two dots are no token
    rw [if_pos hdots] at hlen
    rw [Bool.and_eq_true, beq_iff_eq] at hdots
    obtain rfl := hdots.1
    have hshort : ¬ ['.', '.'] <+: cs' :=
      fun h => Nat.not_le.mpr hlen (Nat.add_le_add_right h.length_le 1)
    left
    rw [if_neg (by rw [Bool.and_eq_true, List.isPrefixOf_iff_prefix]; exact fun h => hshort h.2)]
    simp [isPunct]
    decide
  rw [if_neg hdots] at hlen ⊢
  rw [if_neg (not_dots_of_shorter hpre hdots)]
  by_cases hstart : isNameStart c = true
  · rw [if_pos hstart, if_pos hstart]
    exact Or.inr ⟨nofun, nofun⟩
  rw [if_neg hstart] at hlen ⊢
  rw [if_neg hstart]
  by_cases hdollar : (c == '$') = true
  · rw [if_pos hdollar]
    exact Or.inr ⟨nofun, fun _ => rfl⟩
  rw [if_neg hdollar] at hlen ⊢
  rw [if_neg hdollar]
  by_cases hnumber : (c.isDigit || (c == '-' && cs.head?.any Char.isDigit)) = true
  · rw [if_pos hnumber]
    by_cases hnumber' : (c.isDigit || (c == '-' && cs'.head?.any Char.isDigit)) = true
    · rw [if_pos hnumber']
      exact Or.inr ⟨nofun, nofun⟩
    · -- a minus sign without its number is no token
      rw [Bool.or_eq_true, Bool.and_eq_true, beq_iff_eq] at hnumber
      obtain rfl : c = '-' := by
        rcases hnumber with hdigit | hminus
        · exact absurd (by rw [hdigit, Bool.true_or]) hnumber'
        · exact hminus.1
      rw [if_neg hnumber']
      exact Or.inl rfl
  rw [if_neg hnumber] at hlen ⊢
  rw [if_neg (not_number_of_shorter hpre hnumber)]
  by_cases hquote : (c == '\'' || c == '"') = true
  · rw [if_pos hquote, if_pos hquote]
    exact Or.inr ⟨nofun, nofun⟩
  · -- any other token is one character, for which there is room
    rw [if_neg hquote] at hlen
    split at hlen
    · simp [Token.text] at hlen
    · simp [Token.text] at hlen

/-! ## Cutting a text -/

/-- Cutting a text cuts its tokens, or leaves a character that is no token. -/
theorem cut_tokensFrom (pos : Nat) {input' input : List Char} (hpre : input' <+: input) :
    Cut (tokensFrom pos input') (tokensFrom pos input) ∨ ∃ l ∈ tokensFrom pos input',
      ¬ l.token.Proper := by
  match input' with
  | [] => exact Or.inl (.nil _)
  | c :: cs' =>
    obtain ⟨cs, rfl, hcs⟩ := List.cons_prefix_iff.mp hpre
    by_cases hc : isBlank c = true
    · rw [tokensFrom_blank hc, tokensFrom_blank hc]
      exact cut_tokensFrom _ hcs
    rw [Bool.not_eq_true] at hc
    rw [tokensFrom_cons hc, tokensFrom_cons hc]
    by_cases hlen : (tokenAt c cs).text.toList.length ≤ cs'.length + 1
    · rw [tokenAt_of_shorter hcs hlen]
      rcases cut_tokensFrom (pos + bytes (tokenAt c cs).text.toList)
        (hpre.drop (tokenAt c cs).text.toList.length) with hcut | ⟨l, hl, hother⟩
      · exact Or.inl (.cons _ hcut)
      · exact Or.inr ⟨l, List.mem_cons_of_mem _ hl, hother⟩
    · rcases tokenAt_of_cut hcs (Nat.not_le.mp hlen) with hother | ⟨hmark, hreference⟩
      · exact Or.inr ⟨_, List.mem_cons_self, fun h => h c hother⟩
      · exact Or.inl (.inside _ _ hmark hreference)
termination_by input'.length
decreasing_by
  · simp
  · have hpos := text_tokenAt_pos c cs
    rw [List.length_drop, List.length_cons]
    omega

/-- The input up to the end of a token, and what its tokens are if it ends anywhere behind that
place. -/
structure SplitsAt (pos : Nat) (front back : List Char) (used : List Lexeme) : Prop where
  stop : ∀ t ∈ used.getLast?, t.stop = pos + bytes front
  nil : used = [] → front = []
  tokens : ∀ mid, mid <+: back →
    tokensFrom pos (front ++ mid) = used ++ tokensFrom (pos + bytes front) mid

theorem splitsAt_nil (pos : Nat) (back : List Char) : SplitsAt pos [] back [] :=
  ⟨nofun, fun _ => rfl, fun _ _ => rfl⟩

theorem SplitsAt.blank {c : Char} {pos : Nat} {front back : List Char} {used : List Lexeme}
    (hc : isBlank c = true) (h : SplitsAt (pos + c.utf8Size) front back used) (hused : used ≠ []) :
    SplitsAt pos (c :: front) back used where
  stop := by
    intro t ht
    rw [h.stop t ht, bytes_cons, Nat.add_assoc]
  nil := fun hnil => absurd hnil hused
  tokens := by
    intro mid hmid
    rw [List.cons_append, tokensFrom_blank hc, h.tokens mid hmid, bytes_cons, Nat.add_assoc]

theorem SplitsAt.token {c : Char} {cs : List Char} {pos : Nat} {front back : List Char}
    {used : List Lexeme} (hc : isBlank c = false)
    (hcs : (tokenAt c cs).text.toList ++ (front ++ back) = c :: cs)
    (h : SplitsAt (pos + bytes (tokenAt c cs).text.toList) front back used) :
    SplitsAt pos ((tokenAt c cs).text.toList ++ front) back
      (⟨tokenAt c cs, pos, pos + bytes (tokenAt c cs).text.toList⟩ :: used) where
  stop := by
    intro t ht
    rw [bytes_append]
    cases used with
    | nil =>
      rw [List.getLast?_singleton, Option.mem_some_iff] at ht
      rw [h.nil rfl, ← ht]
      rfl
    | cons l ls =>
      rw [List.getLast?_cons_cons] at ht
      rw [h.stop t ht, Nat.add_assoc]
  nil := nofun
  tokens := by
    intro mid hmid
    have hpos := text_tokenAt_pos c cs
    have hpre : (tokenAt c cs).text.toList ++ front ++ mid <+: c :: cs := by
      rw [← hcs, List.append_assoc, List.prefix_append_right_inj, List.prefix_append_right_inj]
      exact hmid
    have hlen : (tokenAt c cs).text.toList.length ≤
        ((tokenAt c cs).text.toList ++ front ++ mid).length := by
      rw [List.append_assoc, List.length_append]
      omega
    -- the shorter text starts with the same character, and has room for the token
    cases hshort : (tokenAt c cs).text.toList ++ front ++ mid with
    | nil =>
      rw [hshort, List.length_nil] at hlen
      omega
    | cons d tail =>
      rw [hshort] at hpre hlen
      obtain ⟨rfl, htail⟩ := List.cons_prefix_cons.mp hpre
      rw [tokensFrom_cons hc, tokenAt_of_shorter htail hlen, ← hshort]
      dsimp only
      rw [List.append_assoc, List.drop_left, h.tokens mid hmid, bytes_append, List.cons_append,
        Nat.add_assoc]

theorem exists_splitsAt (pos : Nat) {input : List Char} {used left : List Lexeme}
    (h : tokensFrom pos input = used ++ left) :
    ∃ front back, input = front ++ back ∧ SplitsAt pos front back used := by
  match used, input with
  | [], input => exact ⟨[], input, rfl, splitsAt_nil pos input⟩
  | t :: used, [] => cases h
  | t :: used, c :: cs =>
    by_cases hc : isBlank c = true
    · rw [tokensFrom_blank hc] at h
      obtain ⟨front, back, rfl, hsplit⟩ := exists_splitsAt _ h
      exact ⟨c :: front, back, rfl, hsplit.blank hc (by simp)⟩
    rw [Bool.not_eq_true] at hc
    rw [tokensFrom_cons hc, List.cons_append, List.cons.injEq] at h
    obtain ⟨rfl, h⟩ := h
    obtain ⟨front, back, hdrop, hsplit⟩ := exists_splitsAt _ h
    obtain ⟨rest, hrest⟩ := isPrefix_text_tokenAt c cs
    rw [← hrest, List.drop_left] at hdrop
    subst hdrop
    exact ⟨_, back, by rw [List.append_assoc, hrest], hsplit.token hc hrest⟩
termination_by input.length
decreasing_by
  · simp
  · exact Nat.lt_succ_of_le (length_drop_tokenAt c cs)

theorem SplitsAt.consumed_eq {front back : List Char} {used : List Lexeme}
    (h : SplitsAt 0 front back used) (left : List Lexeme) :
    consumed (used ++ left) left = bytes front := by
  refine consumed_append (fun hempty => by rw [h.nil hempty]; rfl) (fun t ht => ?_) left
  rw [h.stop t ht, Nat.zero_add]

theorem all_blank_of_tokensFrom {pos : Nat} {input : List Char} (h : tokensFrom pos input = []) :
    ∀ c ∈ input, isBlank c = true := by
  obtain ⟨front, tail, rfl, htail, hnil, -⟩ := scan_last pos (Nat.le_refl input.length)
  rw [hnil h]
  exact htail

theorem tokensFrom_of_all_blank {pos : Nat} {input : List Char}
    (h : ∀ c ∈ input, isBlank c = true) :
    tokensFrom pos input = [] := by
  induction input generalizing pos with
  | nil => rfl
  | cons c cs ih =>
    rw [List.forall_mem_cons] at h
    rw [tokensFrom_blank h.1, ih h.2]

theorem all_blank_of_trim {cs : List Char} (h : trim cs = []) : ∀ c ∈ cs, isBlank c = true := by
  have hreverse : ((cs.dropWhile isBlank).reverse).dropWhile isBlank = [] :=
    List.reverse_eq_nil_iff.mp h
  have hall : ∀ c ∈ cs.dropWhile isBlank, isBlank c = true :=
    fun c hc => List.dropWhile_eq_nil_iff.mp hreverse c (List.mem_reverse.mpr hc)
  intro c hc
  rw [← cs.takeWhile_append_dropWhile (p := isBlank), List.mem_append] at hc
  exact hc.elim List.mem_takeWhile_imp (hall c)

/-- What reading the start of a text gives, in terms of its tokens. -/
theorem exists_of_readPrefix {input : List Char} {t : TypeExpr} {n : Nat}
    (h : readPrefix input = .ok (t, n)) :
    ∃ front back used left, input = front ++ back ∧ n = bytes front ∧ used ≠ [] ∧
      SplitsAt 0 front back used ∧ left = tokensFrom n back ∧ Takes 4 readUnion used t left := by
  obtain ⟨⟨t', left⟩, hread, hresult⟩ := exists_of_bind_eq_ok h
  obtain ⟨rfl, rfl⟩ := Prod.mk.inj (Except.ok.inj hresult)
  obtain ⟨used, hused, hle, htakes⟩ := (localReaders _).union hread
  obtain ⟨front, back, rfl, hsplit⟩ := exists_splitsAt 0 hused
  have hback := hsplit.tokens back (List.prefix_refl _)
  rw [Nat.zero_add] at hback
  have hleft : left = tokensFrom (bytes front) back :=
    List.append_cancel_left (hused.symm.trans hback)
  refine ⟨front, back, used, left, rfl, ?_, ?_, hsplit, ?_, htakes⟩
  · rw [hused, hsplit.consumed_eq]
  · rintro rfl
    simp at hle
  · rw [hused, hsplit.consumed_eq]
    exact hleft

/-- A text that is read as a whole has all its tokens taken. -/
theorem takes_of_read {input : List Char} {t : TypeExpr} (h : read input = .ok t) :
    Takes 4 readUnion (lexemes input) t [] := by
  obtain ⟨⟨t', n⟩, hread, hresult⟩ := exists_of_bind_eq_ok h
  obtain ⟨front, back, used, left, rfl, rfl, -, hsplit, rfl, htakes⟩ := exists_of_readPrefix hread
  dsimp only at hresult
  rw [dropBytes_append] at hresult
  cases htrim : trim back with
  | nil =>
    rw [htrim] at hresult
    obtain rfl := Except.ok.inj hresult
    have hleft : tokensFrom (bytes front) back = [] :=
      tokensFrom_of_all_blank (all_blank_of_trim htrim)
    have hused := hsplit.tokens back (List.prefix_refl _)
    rw [Nat.zero_add, hleft, List.append_nil] at hused
    rw [hleft] at htakes
    have hlexemes : lexemes (front ++ back) = used := hused
    rw [hlexemes]
    exact htakes
  | cons c cs =>
    rw [htrim] at hresult
    cases hresult

theorem read_of_takes {input : List Char} {t : TypeExpr}
    (h : Takes 4 readUnion (lexemes input) t []) :
    read input = .ok t := by
  have hagain : readUnion (readingDepth (lexemes input)) (lexemes input ++ []) = .ok (t, []) :=
    h.again (.nil []) (by unfold readingDepth; omega)
  rw [List.append_nil] at hagain
  exact read_of_readUnion hagain

/-- A reader that takes tokens up to a place takes no more of them in a text that was cut off
behind that place. -/
theorem Takes.eq_of_cut {reader : Reader α} {extra : Nat} {used left more : List Lexeme} {a b : α}
    (h : Takes extra reader used a left) (hcut : Cut more left)
    (h' : Takes extra reader (used ++ more) b []) :
    more = [] := by
  have hdepth : 8 * used.length + extra ≤ 8 * (used ++ more).length + extra := by
    rw [List.length_append]
    omega
  have hshort := h.again hcut hdepth
  have hlong := h'.again (Cut.refl []) (Nat.le_refl _)
  rw [List.append_nil, hshort] at hlong
  exact (Prod.mk.inj (Except.ok.inj hlong)).2

/-- No longer piece of the text is a type. -/
theorem read_error_of_longer {front back mid : List Char} {used : List Lexeme} {t : TypeExpr}
    (hsplit : SplitsAt 0 front back used)
    (htakes : Takes 4 readUnion used t (tokensFrom (bytes front) back))
    (hmid : mid <+: back) (hblank : ∃ c ∈ mid, isBlank c = false) :
    ∃ e, read (front ++ mid) = .error e := by
  cases hread : read (front ++ mid) with
  | error e => exact ⟨e, rfl⟩
  | ok u =>
    exfalso
    have hlonger := takes_of_read hread
    have htokens : lexemes (front ++ mid) = used ++ tokensFrom (0 + bytes front) mid :=
      hsplit.tokens mid hmid
    rw [htokens, Nat.zero_add] at hlonger
    rcases cut_tokensFrom (bytes front) hmid with hcut | ⟨l, hl, hother⟩
    · obtain ⟨c, hc, hnot⟩ := hblank
      have hall := all_blank_of_tokensFrom (htakes.eq_of_cut hcut hlonger)
      rw [hall c hc] at hnot
      cases hnot
    · exact hother (hlonger.proper l (List.mem_append_right used hl))

/--
The type at the start of a text ends after `n` bytes, at the end of a character. The text up to
there denotes it, and no longer piece of the text denotes a type, unless it is longer by white
space only.
-/
theorem parsePrefix_longest {text : String} {t : TypeExpr} {n : Nat}
    (h : parsePrefix text = .ok (t, n)) :
    0 < n ∧ n ≤ byteLength text ∧ ∃ front back : String, text = front ++ back ∧
      byteLength front = n ∧ parse front = .ok t ∧
      ∀ mid rest : String, back = mid ++ rest → (∃ c ∈ mid.toList, isBlank c = false) →
        ∃ e, parse (front ++ mid) = .error e := by
  rw [parsePrefix_eq_readPrefix] at h
  obtain ⟨front, back, used, left, htext, rfl, hused, hsplit, rfl, htakes⟩ :=
    exists_of_readPrefix h
  have hfront : lexemes front = used := by
    have htokens := hsplit.tokens [] List.nil_prefix
    rw [List.append_nil] at htokens
    exact htokens.trans (List.append_nil used)
  have hpos : 0 < bytes front := by
    cases front with
    | nil => exact absurd hfront.symm hused
    | cons c cs =>
      rw [bytes_cons]
      exact Nat.add_pos_left c.utf8Size_pos _
  have hle : bytes front ≤ byteLength text := by
    rw [byteLength, htext, bytes_append]
    exact Nat.le_add_right _ _
  refine ⟨hpos, hle, .ofList front, .ofList back, ?_, ?_, ?_, ?_⟩
  · rw [← String.ofList_append, ← htext, String.ofList_toList]
  · rw [byteLength, String.toList_ofList]
  · rw [parse_eq_read, String.toList_ofList]
    apply read_of_takes
    rw [hfront]
    exact ⟨htakes.proper, fun hcut hdepth => htakes.again (by cases hcut; exact .nil _) hdepth⟩
  · intro mid rest hback hblank
    have hmid : mid.toList <+: back :=
      ⟨rest.toList, by rw [← String.toList_append, ← hback, String.toList_ofList]⟩
    rw [parse_eq_read, String.toList_append, String.toList_ofList]
    exact read_error_of_longer hsplit htakes hmid hblank

/-- `?int|Foo::A &$rest` starts with a type of 11 bytes, before a parameter passed by reference. -/
theorem parsePrefix_longest_reference :
    parsePrefix "?int|Foo::A &$rest" = .ok (.union [.nullable (.name "int"), .name "Foo::A"], 11) ∧
      ∃ front back : String, "?int|Foo::A &$rest" = front ++ back ∧ byteLength front = 11 ∧
        parse front = .ok (.union [.nullable (.name "int"), .name "Foo::A"]) ∧
        ∀ mid rest : String, back = mid ++ rest → (∃ c ∈ mid.toList, isBlank c = false) →
          ∃ e, parse (front ++ mid) = .error e := by
  have h : parsePrefix "?int|Foo::A &$rest" =
      .ok (.union [.nullable (.name "int"), .name "Foo::A"], 11) := by
    decide +kernel
  exact ⟨h, (parsePrefix_longest h).2.2⟩

end ClassDocs.TypeExpr

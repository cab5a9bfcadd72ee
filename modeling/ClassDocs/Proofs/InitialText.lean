import ClassDocs.Proofs.Declared
import ClassDocs.Proofs.Trimming

/-!
# Which text is taken for an initial value

The initial value of a declaration is cut out of its text: what stands behind the first equals
sign, less the white space around it and the semicolons at its end. For a declaration `before = gap
expression behind` this is the expression only if the three other parts let it be, and
`initializer_eq_some_iff` says which these are.
-/

namespace ClassDocs.Source

open ClassDocs.Text

/-- White space, semicolons, white space: what may end a declaration behind its initial value. -/
def isEnding (cs : List Char) : Bool := ((trimStart cs).dropWhile (· == ';')).all isBlank

/-- A character that no ending has. -/
def isSolid (c : Char) : Bool := !isBlank c && c != ';'

/-- The text starts and ends with characters that are neither white space nor semicolons. -/
structure Whole (cs : List Char) : Prop where
  first : ∃ c, cs.head? = some c ∧ isSolid c = true
  last : ∃ c, cs.getLast? = some c ∧ isSolid c = true

theorem isEnding_append_blanks {pad : List Char} (h : ∀ c ∈ pad, isBlank c = true)
    (cs : List Char) :
    isEnding (pad ++ cs) = isEnding cs := by
  rw [isEnding, trimStart, List.dropWhile_append_of_pos h]
  rfl

theorem isEnding_iff {cs : List Char} :
    isEnding cs = true ↔ ∃ pad semis after, cs = pad ++ (semis ++ after) ∧
    (∀ c ∈ pad, isBlank c = true) ∧ (∀ c ∈ semis, c = ';') ∧ ∀ c ∈ after, isBlank c = true := by
  constructor
  · intro h
    refine ⟨cs.takeWhile isBlank, (trimStart cs).takeWhile (· == ';'),
      (trimStart cs).dropWhile (· == ';'), ?_, ?_, ?_, ?_⟩
    · rw [List.takeWhile_append_dropWhile, trimStart, List.takeWhile_append_dropWhile]
    · exact fun c hc => List.mem_takeWhile_imp hc
    · intro c hc
      have hsemi := List.mem_takeWhile_imp hc
      exact beq_iff_eq.mp hsemi
    · exact List.all_eq_true.mp h
  · rintro ⟨pad, semis, after, rfl, hpad, hsemis, hafter⟩
    rw [isEnding_append_blanks hpad]
    cases semis with
    | nil =>
      have hnil : trimStart after = [] := List.dropWhile_eq_nil_iff.mpr hafter
      rw [List.nil_append, isEnding, hnil]
      rfl
    | cons c semis =>
      have hc : c = ';' := hsemis c List.mem_cons_self
      have hstart : trimStart (c :: semis ++ after) = c :: semis ++ after :=
        trimStart_of_head? (c := c) rfl (by rw [hc]; decide)
      rw [isEnding, hstart, List.dropWhile_append_of_pos fun d hd => beq_iff_eq.mpr (hsemis d hd),
        List.all_eq_true]
      exact fun d hd => hafter d (List.dropWhile_subset _ hd)

theorem isSolid_iff {c : Char} : isSolid c = true ↔ isBlank c = false ∧ (c == ';') = false := by
  rw [isSolid, Bool.and_eq_true, Bool.not_eq_true', bne, Bool.not_eq_true']

theorem not_isSolid_of_isBlank {c : Char} (h : isBlank c = true) : isSolid c = false := by
  rw [isSolid, h]
  rfl

theorem not_isSolid_of_isEnding {cs : List Char} (h : isEnding cs = true) :
    ∀ c ∈ cs, isSolid c = false := by
  obtain ⟨pad, semis, after, rfl, hpad, hsemis, hafter⟩ := isEnding_iff.mp h
  intro c hc
  rcases List.mem_append.mp hc with hc | hc
  · exact not_isSolid_of_isBlank (hpad c hc)
  rcases List.mem_append.mp hc with hc | hc
  · rw [hsemis c hc]
    decide
  · exact not_isSolid_of_isBlank (hafter c hc)

/-- What is left of the text behind an equals sign. -/
def strip (cs : List Char) : List Char := trimEnd (dropEndWhile (· == ';') (trim cs))

/-- White space in front and an ending behind are all that is taken off. -/
theorem exists_of_strip (cs : List Char) : ∃ pad tail, cs = pad ++ (strip cs ++ tail) ∧
    (∀ c ∈ pad, isBlank c = true) ∧ isEnding tail = true := by
  obtain ⟨after, hafter, hend⟩ := exists_of_trimEnd (trimStart cs)
  obtain ⟨pad, hpad, hkept⟩ := exists_of_trimEnd (dropEndWhile (· == ';') (trim cs))
  have hsemis : trim cs = strip cs ++ pad ++ (trim cs).rtakeWhile (· == ';') := by
    rw [strip, ← hkept]
    exact List.rdropWhile_append_rtakeWhile.symm
  refine ⟨cs.takeWhile isBlank, pad ++ ((trim cs).rtakeWhile (· == ';') ++ after), ?_, ?_, ?_⟩
  · calc cs = cs.takeWhile isBlank ++ trimStart cs := List.takeWhile_append_dropWhile.symm
      _ = cs.takeWhile isBlank ++ (trim cs ++ after) := congrArg _ hend
      _ = cs.takeWhile isBlank ++
          (strip cs ++ (pad ++ ((trim cs).rtakeWhile (· == ';') ++ after))) := by
        rw [List.append_cancel_left_eq, ← List.append_assoc, ← List.append_assoc, ← hsemis]
  · exact fun c hc => List.mem_takeWhile_imp hc
  · refine isEnding_iff.mpr ⟨_, _, _, rfl, hpad, ?_, hafter⟩
    intro c hc
    have hsemi := List.mem_rtakeWhile_imp hc
    exact beq_iff_eq.mp hsemi

theorem getLast?_append_blanks {cs pad : List Char} {c : Char} (hlast : cs.getLast? = some c)
    (hc : isSolid c = true) (hpad : ∀ c ∈ pad, isBlank c = true) :
    ∃ d, (cs ++ pad).getLast? = some d ∧ (d == ';') = false := by
  cases hd : pad.getLast? with
  | none =>
    rw [List.getLast?_eq_none_iff] at hd
    exact ⟨c, by rw [hd, List.append_nil, hlast], (isSolid_iff.mp hc).2⟩
  | some d =>
    refine ⟨d, by rw [List.getLast?_append, hd]; rfl, beq_eq_false_iff_ne.mpr ?_⟩
    rintro rfl
    exact absurd (hpad ';' (List.mem_of_getLast? hd)) (by decide)

/-- A whole text comes back from between white space and an ending. -/
theorem Whole.strip_pad {cs pad tail : List Char} (h : Whole cs)
    (hpad : ∀ c ∈ pad, isBlank c = true) (htail : isEnding tail = true) :
    strip (pad ++ (cs ++ tail)) = cs := by
  obtain ⟨mid, semis, after, rfl, hmid, hsemis, hafter⟩ := isEnding_iff.mp htail
  obtain ⟨b, hfirst, hb⟩ := h.first
  obtain ⟨c, hlast, hc⟩ := h.last
  have hstart : trimStart (pad ++ (cs ++ (mid ++ (semis ++ after)))) =
      cs ++ (mid ++ (semis ++ after)) := by
    rw [trimStart, List.dropWhile_append_of_pos hpad]
    exact trimStart_of_head? (by rw [List.head?_append, hfirst]; rfl) (isSolid_iff.mp hb).1
  have htrim : trim (pad ++ (cs ++ (mid ++ (semis ++ after)))) = trimEnd (cs ++ mid ++ semis) := by
    have htrim : ∀ ds : List Char, trim ds = trimEnd (trimStart ds) := fun _ => rfl
    rw [htrim, hstart, ← trimEnd_append_blanks hafter (cs ++ mid ++ semis), List.append_assoc,
      List.append_assoc]
  have hend : trimEnd (cs ++ mid) = cs := by
    rw [trimEnd_append_blanks hmid, trimEnd_of_getLast? hlast (isSolid_iff.mp hc).1]
  rw [strip, htrim]
  cases hsemi : semis.getLast? with
  | none =>
    -- only white space stands behind the text
    rw [List.getLast?_eq_none_iff.mp hsemi, List.append_nil, hend]
    have hkeep : dropEndWhile (· == ';') (cs ++ []) = cs :=
      dropEndWhile_append hlast (isSolid_iff.mp hc).2 (by simp)
    rw [List.append_nil] at hkeep
    rw [hkeep, trimEnd_of_getLast? hlast (isSolid_iff.mp hc).1]
  | some d =>
    obtain rfl : d = ';' := hsemis d (List.mem_of_getLast? hsemi)
    obtain ⟨e, he, hne⟩ := getLast?_append_blanks hlast hc hmid
    have hall : trimEnd (cs ++ mid ++ semis) = cs ++ mid ++ semis :=
      trimEnd_of_getLast? (c := ';') (by rw [List.getLast?_append, hsemi]; rfl) (by decide)
    rw [hall, dropEndWhile_append he hne fun c hc => beq_iff_eq.mpr (hsemis c hc), hend]

theorem strip_eq_nil_iff {cs : List Char} : strip cs = [] ↔ isEnding cs = true := by
  constructor
  · intro h
    obtain ⟨pad, tail, hcs, hpad, htail⟩ := exists_of_strip cs
    rw [hcs, h, List.nil_append, isEnding_append_blanks hpad]
    exact htail
  · intro h
    obtain ⟨pad, semis, after, rfl, hpad, hsemis, hafter⟩ := isEnding_iff.mp h
    have htrim : trim (pad ++ (semis ++ after)) = semis := by
      rw [← List.append_assoc]
      cases semis with
      | nil =>
        rw [List.append_nil, trim_append_blanks hafter]
        exact trim_append_blanks hpad []
      | cons c semis =>
        have htight : Tight (c :: semis) := by
          refine ⟨⟨c, rfl, ?_⟩,
            ⟨(c :: semis).getLast (by simp), List.getLast?_eq_some_getLast _, ?_⟩⟩
          · rw [hsemis c List.mem_cons_self]
            decide
          · rw [hsemis _ (List.getLast_mem _)]
            decide
        exact htight.trim_pad hpad hafter
    have hnone : dropEndWhile (· == ';') semis = [] :=
      List.rdropWhile_eq_nil_iff.mpr fun c hc => beq_iff_eq.mpr (hsemis c hc)
    rw [strip, htrim, hnone]
    rfl

theorem afterEquals_append {front : List Char} (h : '=' ∉ front) (rest : List Char) :
    afterEquals (front ++ '=' :: rest) = some rest := by
  induction front with
  | nil => rfl
  | cons c front ih =>
    rw [List.mem_cons, not_or] at h
    rw [List.cons_append, afterEquals, if_neg (by simpa using Ne.symm h.1), ih h.2]

theorem exists_of_afterEquals {cs rest : List Char} (h : afterEquals cs = some rest) :
    ∃ front, cs = front ++ '=' :: rest ∧ '=' ∉ front := by
  induction cs with
  | nil => cases h
  | cons c cs ih =>
    rw [afterEquals] at h
    rcases then_or_else h with ⟨hc, h⟩ | ⟨hc, h⟩
    · obtain rfl := Option.some.inj h
      exact ⟨[], by rw [beq_iff_eq.mp hc]; rfl, List.not_mem_nil⟩
    · obtain ⟨front, rfl, hfront⟩ := ih h
      refine ⟨c :: front, rfl, ?_⟩
      rw [List.mem_cons, not_or]
      exact ⟨fun heq => hc (by rw [← heq]; rfl), hfront⟩

theorem initializer_of_afterEquals {cs rest : List Char} (h : afterEquals cs = some rest) :
    initializer cs = if strip rest = [] then none else some (.ofList (strip rest)) := by
  unfold initializer
  rw [h]
  dsimp only
  rw [← strip]
  cases strip rest <;> rfl

theorem exists_of_initializer {cs value : List Char} (h : initializer cs = some (.ofList value)) :
    ∃ front rest, cs = front ++ '=' :: rest ∧ '=' ∉ front ∧ strip rest = value := by
  cases hafter : afterEquals cs with
  | none =>
    rw [initializer, hafter] at h
    cases h
  | some rest =>
    obtain ⟨front, hcs, hfront⟩ := exists_of_afterEquals hafter
    rw [initializer_of_afterEquals hafter] at h
    rcases then_or_else h with ⟨-, h⟩ | ⟨-, h⟩
    · cases h
    · exact ⟨front, rest, hcs, hfront, String.ofList_injective (Option.some.inj h)⟩

/-- Nothing is taken for an initial value only where nothing but an ending follows the first equals
sign. -/
theorem initializer_eq_none_iff {cs : List Char} : initializer cs = none ↔
    ∀ front rest, cs = front ++ '=' :: rest → '=' ∉ front → isEnding rest = true := by
  constructor
  · rintro h front rest rfl hfront
    rw [initializer_of_afterEquals (afterEquals_append hfront rest)] at h
    by_contra hending
    rw [if_neg fun hnil => hending (strip_eq_nil_iff.mp hnil)] at h
    cases h
  · intro h
    cases hafter : afterEquals cs with
    | none => rw [initializer, hafter]
    | some rest =>
      obtain ⟨front, hcs, hfront⟩ := exists_of_afterEquals hafter
      rw [initializer_of_afterEquals hafter,
        if_pos (strip_eq_nil_iff.mpr (h front rest hcs hfront))]

/-- Of two equals signs in one text, the first one has more of them behind it. -/
theorem eq_of_count_le {front rest before tail : List Char} (hfront : '=' ∉ front)
    (heq : front ++ '=' :: rest = before ++ '=' :: tail)
    (hcount : rest.count '=' ≤ tail.count '=') :
    front = before ∧ rest = tail := by
  rcases List.append_eq_append_iff.mp heq with ⟨more, rfl, hmore⟩ | ⟨more, rfl, hmore⟩
  · cases more with
    | nil => exact ⟨by simp, (List.cons.inj hmore).2⟩
    | cons c more =>
      obtain rfl := (List.cons.inj hmore).1
      have hrest : rest = more ++ '=' :: tail := (List.cons.inj hmore).2
      rw [hrest, List.count_append, List.count_cons_self] at hcount
      omega
  · cases more with
    | nil => exact ⟨by simp, (List.cons.inj hmore).2.symm⟩
    | cons c more =>
      obtain ⟨rfl, -⟩ := List.cons.inj hmore
      exact absurd (by simp) hfront

theorem count_equals_of_not_isSolid {cs : List Char} (h : ∀ c ∈ cs, isSolid c = false) :
    cs.count '=' = 0 := by
  refine List.count_eq_zero.mpr fun hmem => ?_
  exact absurd (h '=' hmem) (by decide)

/-- A text that starts solid stands at one place only between characters that are not. -/
theorem Whole.append_inj {cs front back front' back' : List Char} (h : Whole cs)
    (heq : front ++ (cs ++ back) = front' ++ (cs ++ back'))
    (hfront : ∀ c ∈ front, isSolid c = false) (hback : ∀ c ∈ back, isSolid c = false) :
    front = front' ∧ back = back' := by
  -- no solid character is left for the second front
  have hcount := congrArg (List.countP isSolid) heq
  simp only [List.countP_append] at hcount
  have hnone : ∀ ds : List Char, (∀ c ∈ ds, isSolid c = false) → ds.countP isSolid = 0 :=
    fun ds hds => List.countP_eq_zero.mpr fun c hc => Bool.eq_false_iff.mp (hds c hc)
  have hzero := hnone front hfront
  have hzero' := hnone back hback
  have hfront' : ∀ c ∈ front', isSolid c = false := by
    have hless : front'.countP isSolid = 0 := by omega
    intro c hc
    simpa using List.countP_eq_zero.mp hless c hc
  obtain ⟨c, hc, hsolid⟩ := h.first
  obtain ⟨rest, rfl⟩ := List.head?_eq_some_iff.mp hc
  have htake : ∀ (f b : List Char), (∀ c ∈ f, isSolid c = false) →
      (f ++ (c :: rest ++ b)).takeWhile (!isSolid ·) = f := by
    intro f b hf
    rw [List.takeWhile_append_of_pos fun c hc => by rw [hf c hc]; rfl]
    simp [hsolid]
  obtain rfl : front = front' := by rw [← htake front back hfront, heq, htake front' back' hfront']
  exact ⟨rfl, List.append_cancel_left (List.append_cancel_left heq)⟩

/-- **When the value of a declaration is the text of its expression.** Neither an equals sign
stands before the one of the declaration, nor anything but white space between it and the
expression, nor anything but an ending behind it. -/
theorem initializer_eq_some_iff (before gap expression behind : List Char)
    (h : Whole (trim expression)) :
    initializer (before ++ '=' :: (gap ++ (expression ++ behind))) =
      some (.ofList (trim expression)) ↔
      '=' ∉ before ∧ (∀ c ∈ gap, isBlank c = true) ∧ isEnding behind = true := by
  obtain ⟨pad, hpad, hstart⟩ : ∃ pad, (∀ c ∈ pad, isBlank c = true) ∧
      expression = pad ++ trimStart expression :=
    ⟨expression.takeWhile isBlank, fun c hc => List.mem_takeWhile_imp hc,
      List.takeWhile_append_dropWhile.symm⟩
  obtain ⟨pad', hpad', hend⟩ := exists_of_trimEnd (trimStart expression)
  have htext : gap ++ (expression ++ behind) =
      gap ++ pad ++ (trim expression ++ (pad' ++ behind)) := by
    have hexpression : expression = pad ++ (trim expression ++ pad') :=
      hstart.trans (congrArg _ hend)
    calc gap ++ (expression ++ behind)
      _ = gap ++ (pad ++ (trim expression ++ pad') ++ behind) := by rw [← hexpression]
      _ = gap ++ pad ++ (trim expression ++ (pad' ++ behind)) := by simp only [List.append_assoc]
  rw [htext]
  constructor
  · intro hvalue
    obtain ⟨front, rest, hcut, hfront, hstrip⟩ := exists_of_initializer hvalue
    obtain ⟨lead, tail, hrest, hlead, htail⟩ := exists_of_strip rest
    rw [hstrip] at hrest
    have hlead' : ∀ c ∈ lead, isSolid c = false := fun c hc => not_isSolid_of_isBlank (hlead c hc)
    have htail' := not_isSolid_of_isEnding htail
    have hcount : rest.count '=' ≤
        (gap ++ pad ++ (trim expression ++ (pad' ++ behind))).count '=' := by
      have hzero := count_equals_of_not_isSolid hlead'
      have hzero' := count_equals_of_not_isSolid htail'
      rw [hrest]
      simp only [List.count_append]
      omega
    obtain ⟨rfl, rfl⟩ := eq_of_count_le hfront hcut.symm hcount
    obtain ⟨rfl, rfl⟩ := h.append_inj hrest.symm hlead' htail'
    refine ⟨hfront, fun c hc => hlead c (List.mem_append_left pad hc), ?_⟩
    rwa [isEnding_append_blanks hpad'] at htail
  · rintro ⟨hbefore, hgap, hbehind⟩
    have hstrip : strip (gap ++ pad ++ (trim expression ++ (pad' ++ behind))) =
        trim expression := by
      refine h.strip_pad ?_ ?_
      · exact fun c hc => (List.mem_append.mp hc).elim (hgap c) (hpad c)
      · rw [isEnding_append_blanks hpad']
        exact hbehind
    have hne : trim expression ≠ [] := by
      obtain ⟨c, hc, -⟩ := h.first
      rintro hnil
      rw [hnil] at hc
      cases hc
    rw [initializer_of_afterEquals (afterEquals_append hbefore _), hstrip, if_neg hne]

theorem exists_first_equals (before rest : List Char) :
    ∃ front more, before ++ '=' :: rest = front ++ '=' :: (more ++ rest) ∧ '=' ∉ front := by
  induction before with
  | nil => exact ⟨[], [], rfl, List.not_mem_nil⟩
  | cons c before ih =>
    by_cases hc : c = '='
    · subst hc
      exact ⟨[], before ++ ['='], by simp, List.not_mem_nil⟩
    · obtain ⟨front, more, heq, hfront⟩ := ih
      refine ⟨c :: front, more, by rw [List.cons_append, heq, List.cons_append], ?_⟩
      rw [List.mem_cons, not_or]
      exact ⟨Ne.symm hc, hfront⟩

/-- A whole expression behind an equals sign always leaves a value. -/
theorem initializer_ne_none (before gap expression behind : List Char)
    (h : Whole (trim expression)) :
    initializer (before ++ '=' :: (gap ++ (expression ++ behind))) ≠ none := by
  obtain ⟨front, more, heq, hfront⟩ := exists_first_equals before (gap ++ (expression ++ behind))
  rw [heq]
  intro hnone
  have hending := initializer_eq_none_iff.mp hnone front _ rfl hfront
  obtain ⟨c, hc, hsolid⟩ := h.first
  have hmem : c ∈ expression := (isInfix_trim expression).subset (List.mem_of_head? hc)
  have hnot := not_isSolid_of_isEnding hending c (by simp [hmem])
  rw [hsolid] at hnot
  cases hnot

end ClassDocs.Source

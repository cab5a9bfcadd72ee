import ClassDocs.Proofs.TypeEnd
import ClassDocs.Proofs.TypedTags

/-!
# The parts of a `@param` tag

A `@param` tag holds a type, the parameter and a text, in one line and with nothing between them
but blanks. Where the type ends is found by the reader of types alone: it stops before the variable
and before the marks in front of that. So for every type that is read back from its text, the tag
with that text has the type, the variable without its marks, and the text behind it
(`parse_param_tag`).
-/

namespace ClassDocs

open Text

namespace TypeExpr

/-! ## The tokens of a parameter -/

theorem peek_tokensFrom {c : Char} (h : isBlank c = false) (pos : Nat) (cs : List Char) :
    peek (tokensFrom pos (c :: cs)) = some (tokenAt c cs) := by
  rw [tokensFrom_cons h]
  rfl

theorem at?_of_peek {ts : List Lexeme} {tok : Token} (h : peek ts = some tok) (c : Char) :
    at? c ts = true ↔ tok = .punct c := by
  rw [at?, h, beq_iff_eq, Option.some.injEq]

/-- A variable and `...` are no part of a type. -/
theorem foreign_of_marksReference {rest : List Lexeme} {tok : Token} (h : peek rest = some tok)
    (htok : tok.marksReference = true) : Foreign rest where
  mark := by
    intro c hat
    rw [(at?_of_peek h c).mp hat] at htok
    cases htok
  word := by
    intro text htext
    rw [h] at htext
    rw [Option.some.inj htext] at htok
    cases htok
  joins := by
    have hamp : at? '&' rest = false := by
      rw [Bool.eq_false_iff]
      intro hat
      rw [(at?_of_peek h '&').mp hat] at htok
      cases htok
    rw [atIntersection_eq, hamp, Bool.false_and]

theorem foreign_amp {amp : Lexeme} (hamp : amp.token = .punct '&')
    {rest : List Lexeme} {tok : Token} (h : peek rest = some tok)
    (htok : tok.marksReference = true) : Foreign (amp :: rest) where
  mark := by
    intro c hat
    have heq : Token.punct '&' = .punct c := hamp.symm.trans (at?_cons.mp hat)
    exact (Token.punct.inj heq).symm
  word := by
    intro text htext
    have heq : Token.punct '&' = .ident text := hamp.symm.trans (Option.some.inj htext)
    cases heq
  joins := by
    rw [atIntersection_eq, List.tail_cons, h, Option.any_some, htok]
    exact Bool.and_false _

/-- The marks in front of a parameter's name. -/
def parameterMarks : List String := ["", "&", "...", "&..."]

/-- A parameter behind a blank is no part of a type. -/
theorem foreign_parameter {marker : String} (h : marker ∈ parameterMarks) (pos : Nat)
    (cs : List Char) :
    Foreign (tokensFrom pos (' ' :: (marker.toList ++ '$' :: cs))) := by
  have hdollar : ∀ pos, ∃ text, peek (tokensFrom pos ('$' :: cs)) = some (.variable text) :=
    fun pos => ⟨_, peek_tokensFrom (by decide) pos cs⟩
  have hdots : ∀ pos, peek (tokensFrom pos ('.' :: '.' :: '.' :: '$' :: cs)) = some .ellipsis :=
    fun pos => peek_tokensFrom (by decide) pos _
  have hamp : ∀ pos cs, tokensFrom pos ('&' :: cs) =
      ⟨.punct '&', pos, pos + 1⟩ :: tokensFrom (pos + 1) cs := by
    intro pos cs
    rw [tokensFrom_cons (by decide), tokenAt_punct (by decide)]
    rfl
  rw [tokensFrom_blank (by decide)]
  simp only [parameterMarks, List.mem_cons, List.not_mem_nil, or_false] at h
  rcases h with rfl | rfl | rfl | rfl
  · obtain ⟨text, htext⟩ := hdollar (pos + ' '.utf8Size)
    exact foreign_of_marksReference htext rfl
  · obtain ⟨text, htext⟩ := hdollar (pos + ' '.utf8Size + 1)
    rw [show "&".toList ++ '$' :: cs = '&' :: '$' :: cs from rfl, hamp]
    exact foreign_amp rfl htext rfl
  · exact foreign_of_marksReference (hdots _) rfl
  · rw [show "&...".toList ++ '$' :: cs = '&' :: '.' :: '.' :: '.' :: '$' :: cs from rfl, hamp]
    exact foreign_amp rfl (hdots _) rfl

/-! ## Types that start with `$this` -/

theorem isPrefix_joinTexts (sep t : String) (ts : List String) :
    t.toList <+: (joinTexts sep (t :: ts)).toList := by
  cases ts with
  | nil => exact List.prefix_rfl
  | cons u ts =>
    rw [joinTexts, String.toList_append, String.toList_append, List.append_assoc]
    exact List.prefix_append _ _

theorem isPrefix_readBrackets {t : TypeExpr} (h : t.isCompound = false) (ts : List Lexeme) :
    t.render.toList <+: (readBrackets t ts).1.render.toList := by
  fun_induction readBrackets t ts with
  | case1 t s e s' e' ts ih =>
    refine List.IsPrefix.trans ?_ (ih rfl)
    rw [render, if_neg (by simp [h]), String.toList_append]
    exact List.prefix_append _ _
  | case2 t ts => exact List.prefix_rfl

theorem eq_name_of_readAtom {depth : Nat} {ts left : List Lexeme} {t : TypeExpr}
    (hpeek : peek ts = some (.variable "$this")) (h : readAtom depth ts = .ok (t, left)) :
    t = .name "$this" := by
  cases depth with
  | zero => cases h
  | succ depth =>
    rw [readAtom, hpeek] at h
    exact (Prod.mk.inj (Except.ok.inj h)).1.symm

/-- Blanks in front of a text are not part of any token. -/
theorem tokensOf_trimStart (input : List Char) : tokensOf (trimStart input) = tokensOf input := by
  have hblanks : ∀ c ∈ input.takeWhile isBlank, isBlank c = true := fun _ => List.mem_takeWhile_imp
  have htokens := tokensOf_append_blank hblanks (trimStart input)
  rw [trimStart, List.takeWhile_append_dropWhile] at htokens
  exact htokens.symm

theorem read_trimStart {input : List Char} {t : TypeExpr} (h : read input = .ok t) :
    read (trimStart input) = .ok t := by
  have halike := alike_read (tokensOf_trimStart input)
  rw [h] at halike
  cases hread : read (trimStart input) with
  | ok t' =>
    rw [hread] at halike
    cases halike with
    | ok heq => rw [heq]
  | error e =>
    rw [hread] at halike
    cases halike

/-- A text that starts with `$this` denotes a type whose text does. -/
theorem isPrefix_render_of_this {input : List Char} {t : TypeExpr} {n : Nat}
    (h : readPrefix input = .ok (t, n)) (hthis : "$this".toList <+: input) :
    "$this".toList <+: t.render.toList := by
  obtain ⟨cs, rfl⟩ := hthis
  obtain ⟨token, hpeek, hopens⟩ := opensType_of_readPrefix h
  obtain ⟨text, rfl⟩ : ∃ text, token = .variable text :=
    ⟨_, Option.some.inj (hpeek.symm.trans (peek_lexemes (c := '$') (by decide) _))⟩
  obtain rfl : text = "$this" := beq_iff_eq.mp hopens
  -- down to the atom, and up again: `[]`, `&` and `|` are written behind it
  obtain ⟨⟨t', left⟩, hunion, hresult⟩ := exists_of_bind_eq_ok h
  obtain ⟨rfl, -⟩ := Prod.mk.inj (Except.ok.inj hresult)
  obtain ⟨⟨first, mid⟩, hintersection, hunion'⟩ := exists_of_bind_eq_ok hunion
  obtain ⟨⟨head, mid'⟩, hpostfix, hintersection'⟩ := exists_of_bind_eq_ok hintersection
  obtain ⟨⟨atom, mid''⟩, hatom, hbrackets⟩ := exists_of_bind_eq_ok hpostfix
  obtain rfl := eq_name_of_readAtom hpeek hatom
  have hhead : "$this".toList <+: head.render.toList := by
    have hprefix := isPrefix_readBrackets (t := .name "$this") rfl mid''
    have hresult : readBrackets (.name "$this") mid'' = (head, mid') := Except.ok.inj hbrackets
    rwa [hresult] at hprefix
  have hfirst : "$this".toList <+: first.render.toList := by
    obtain ⟨⟨more, mid₃⟩, -, hresult⟩ := exists_of_bind_eq_ok hintersection'
    obtain ⟨rfl, -⟩ := Prod.mk.inj (Except.ok.inj hresult)
    split
    · exact hhead
    · rw [render, renderAll]
      exact hhead.trans (isPrefix_joinTexts _ _ _)
  dsimp only at hunion' ⊢
  split at hunion'
  · obtain ⟨⟨more, mid₃⟩, -, hresult⟩ := exists_of_bind_eq_ok hunion'
    obtain ⟨rfl, -⟩ := Prod.mk.inj (Except.ok.inj hresult)
    rw [render, renderAll]
    exact hfirst.trans (isPrefix_joinTexts _ _ _)
  · obtain ⟨rfl, -⟩ := Prod.mk.inj (Except.ok.inj hunion')
    exact hfirst

end TypeExpr

namespace Docblock

/-! ## The parts behind the type -/

/-- What stands behind the name of a parameter: nothing, or a blank and a text. -/
inductive Remark : List Char → List Char → Prop where
  | none : Remark [] []
  | text {text : List Char} : Tight text → Remark text (' ' :: text)

theorem exists_remark {text : List Char} (h : trim text = text) :
    ∃ remark pad, ' ' :: text ++ [' '] = remark ++ pad ∧ Remark text remark ∧
      (∀ c ∈ pad, isBlank c = true) ∧ '\n' ∉ pad := by
  have hspace : isBlank ' ' = true := rfl
  by_cases hempty : text = []
  · subst hempty
    exact ⟨[], [' ', ' '], rfl, .none, by simp [hspace], by simp⟩
  · exact ⟨' ' :: text, [' '], rfl, .text (tight_of_trim hempty h), by simp [hspace], by simp⟩

theorem Remark.trim_eq {text remark : List Char} (h : Remark text remark) :
    trim remark = text := by
  cases h with
  | none => rfl
  | text htight =>
    have hspace : ∀ c ∈ [' '], isBlank c = true := List.forall_mem_singleton.mpr rfl
    simpa using htight.trim_pad hspace (List.forall_mem_nil _)

/-- The characters of a variable's name. -/
def isVariableChar (c : Char) : Bool := isAlphanumeric c || c == '_'

theorem isBlank_of_isVariableChar {c : Char} (h : isVariableChar c = true) :
    isBlank c = false := by
  apply TypeExpr.isBlank_of_isNameChar
  rw [isVariableChar, Bool.or_eq_true, isAlphanumeric] at h
  rw [TypeExpr.isNameChar]
  by_cases hc : c.toNat < 128
  · rw [if_pos hc] at h
    rw [if_pos hc, Bool.or_eq_true, Bool.or_eq_true]
    exact .inl h
  · rw [if_neg hc] at h
    rw [if_neg hc, isAlphanumeric, if_neg hc]
    refine h.resolve_right fun hline => hc ?_
    rw [beq_iff_eq.mp hline]
    decide

theorem isParameterMark_of_mem {marker : String} (h : marker ∈ TypeExpr.parameterMarks) :
    ∀ c ∈ marker.toList, isParameterMark c = true := by
  simp only [TypeExpr.parameterMarks, List.mem_cons, List.not_mem_nil, or_false] at h
  rcases h with rfl | rfl | rfl | rfl
  all_goals
    rw [← List.all_eq_true]
    rfl

theorem isBlank_of_isParameterMark {c : Char} (h : isParameterMark c = true) : isBlank c = false :=
  TypeExpr.isBlank_of_class (p := isParameterMark) (by decide) h

section Parameter

variable {marker : String} (hmarker : marker ∈ TypeExpr.parameterMarks) {name : List Char}
  (hname : ∀ c ∈ name, isVariableChar c = true) {text remark : List Char}
    (hremark : Remark text remark)
include hmarker hname hremark

theorem readVariable?_parameter :
    readVariable? (marker.toList ++ '$' :: (name ++ remark)) = some (name, remark) := by
  have hmarks : (marker.toList ++ '$' :: (name ++ remark)).dropWhile isParameterMark =
      '$' :: (name ++ remark) := by
    rw [List.dropWhile_append_of_pos (isParameterMark_of_mem hmarker),
      List.dropWhile_cons_of_neg (by decide)]
  have hends : remark.takeWhile isVariableChar = [] ∧
      remark.dropWhile isVariableChar = remark := by
    cases hremark with
    | none => exact ⟨rfl, rfl⟩
    | text => exact ⟨rfl, rfl⟩
  have htake : (name ++ remark).takeWhile isVariableChar = name := by
    rw [List.takeWhile_append_of_pos hname, hends.1, List.append_nil]
  have hdrop : (name ++ remark).dropWhile isVariableChar = remark := by
    rw [List.dropWhile_append_of_pos hname, hends.2]
  unfold readVariable?
  rw [hmarks]
  exact congrArg₂ (fun name rest => some (name, rest)) htake hdrop

theorem tight_parameter : Tight (marker.toList ++ '$' :: (name ++ remark)) where
  first := by
    cases hlist : marker.toList with
    | nil => exact ⟨'$', rfl, rfl⟩
    | cons c cs =>
      have hc : isParameterMark c = true := isParameterMark_of_mem hmarker c (by simp [hlist])
      exact ⟨c, rfl, isBlank_of_isParameterMark hc⟩
  last := by
    cases hremark with
    | none =>
      rcases List.eq_nil_or_concat name with rfl | ⟨front, c, rfl⟩
      · exact ⟨'$', by simp, rfl⟩
      · refine ⟨c, ?_, isBlank_of_isVariableChar (hname c (by simp))⟩
        rw [List.append_nil, List.concat_eq_append, ← List.cons_append, ← List.append_assoc,
          List.getLast?_concat]
    | text htight =>
      obtain ⟨c, hc, hblank⟩ := htight.last
      refine ⟨c, ?_, hblank⟩
      simp [List.getLast?_append, List.getLast?_cons, hc]

/-- A type and a parameter behind it are told apart. -/
theorem readTypedTag_parameter {c : Char} {cs : List Char} (hc : isBlank c = false) {t : TypeExpr}
    (hread : TypeExpr.read (c :: cs) = .ok t) (hclosed : TypeExpr.QuotesClosed (c :: cs))
    (hthis : ¬ "$this".toList <+: t.render.toList) (forAnalyser : Bool) :
    readTypedTag .param forAnalyser
      (c :: cs ++ ' ' :: (marker.toList ++ '$' :: (name ++ remark))) =
      ⟨.param, forAnalyser, .typed t, some (.ofList name), .ofList text⟩ := by
  have hafter := tight_parameter hmarker hname hremark
  obtain ⟨front, tail, hfront, htail, hprefix⟩ :=
    TypeExpr.readPrefix_append hread hclosed (b := ' ') rfl
      (TypeExpr.foreign_parameter hmarker _ (name ++ remark))
  have htight : Tight (c :: cs ++ ' ' :: (marker.toList ++ '$' :: (name ++ remark))) := by
    have hfirst : Tight [c] := ⟨⟨c, rfl, hc⟩, ⟨c, rfl, hc⟩⟩
    simpa using hfirst.append hafter (cs ++ [' '])
  have hrest :
      trimStart
        (dropBytes (bytes front) (c :: cs ++ ' ' :: (marker.toList ++ '$' :: (name ++ remark)))) =
      marker.toList ++ '$' :: (name ++ remark) := by
    have hblanks : ∀ d ∈ tail ++ [' '], isBlank d = true :=
      List.forall_mem_append.mpr ⟨htail, List.forall_mem_singleton.mpr rfl⟩
    rw [hfront, List.append_assoc, dropBytes_append, ← List.singleton_append (x := ' '),
      ← List.append_assoc, trimStart, List.dropWhile_append_of_pos hblanks]
    exact hafter.trimStart_eq
  rw [readTypedTag, readTagType_of_readPrefix htight hprefix,
    if_neg fun h => hthis (TypeExpr.isPrefix_render_of_this hprefix h)]
  have hparam : (TagKind.param == .param || TagKind.param == .var) = true := rfl
  simp only [hrest, hparam, if_true, readVariable?_parameter hmarker hname hremark,
    hremark.trim_eq]

end Parameter

/-! ## The whole comment -/

/-- The line of a tag for a parameter: the tag's name as written, the type, the parameter and what
stands behind it. -/
def paramLine (written : String) (type : List Char) (marker : String) (name remark : List Char) :
    List Char :=
  '@' :: (written.toList ++ ' ' :: (type ++ ' ' :: (marker.toList ++ '$' :: (name ++ remark))))

/-- A comment in one line with a tag for a parameter. -/
def paramComment (analyser type marker name text : String) : String :=
  "/** @" ++ analyser ++ "param " ++ type ++ " " ++ marker ++ "$" ++ name ++ " " ++ text ++ " */"

theorem plain_param :
    ∀ analyser ∈ analysers, (analyser ++ "param").toList.all (!endsTagName ·) = true ∧
    plainName ((analyser ++ "param").toList.map Char.toLower) = (analyser != "", "param") := by
  decide +kernel

theorem toList_paramComment (analyser type marker name : String) {text : String}
    {remark pad : List Char} (h : ' ' :: text.toList ++ [' '] = remark ++ pad) :
    (paramComment analyser type marker name text).toList = "/**".toList ++
      ([' '] ++ paramLine (analyser ++ "param") type.toList marker name.toList remark ++ pad) ++
        "*/".toList := by
  have hopen : "/** @".toList = "/**".toList ++ [' ', '@'] := by decide +kernel
  have hparam : "param ".toList = "param".toList ++ [' '] := by decide +kernel
  have hspace : " ".toList = [' '] := by decide +kernel
  have hdollar : "$".toList = ['$'] := by decide +kernel
  have hclose : " */".toList = [' '] ++ "*/".toList := by decide +kernel
  have htail : ' ' :: (text.toList ++ ' ' :: "*/".toList) = remark ++ (pad ++ "*/".toList) := by
    rw [← List.append_assoc, ← h]
    simp
  have hcomment : paramComment analyser type marker name text =
      "/** @" ++ analyser ++ "param " ++ type ++ " " ++ marker ++ "$" ++ name ++ " " ++
        text ++ " */" := rfl
  rw [hcomment]
  simp only [paramLine, String.toList_append, hopen, hparam, hspace, hdollar, hclose,
    List.append_assoc, List.cons_append, List.nil_append, htail]

section Line

variable {marker : String} (hmarker : marker ∈ TypeExpr.parameterMarks) {name : List Char}
  (hname : ∀ c ∈ name, isVariableChar c = true) {text remark : List Char}
    (hremark : Remark text remark)
include hmarker hname hremark

theorem tight_paramLine (written : String) (type : List Char) :
    Tight (paramLine written type marker name remark) := by
  have hat : Tight ['@'] := ⟨⟨'@', rfl, rfl⟩, ⟨'@', rfl, rfl⟩⟩
  have hline :=
    hat.append (tight_parameter hmarker hname hremark) (written.toList ++ ' ' :: (type ++ [' ']))
  simpa [paramLine] using hline

theorem not_mem_paramLine {written : String} (hwritten : '\n' ∉ written.toList) {type : List Char}
    (htype : '\n' ∉ type) (htext : '\n' ∉ text) :
    '\n' ∉ paramLine written type marker name remark := by
  have hmarks : '\n' ∉ marker.toList :=
    fun hmem => by cases isParameterMark_of_mem hmarker '\n' hmem
  have hvariable : '\n' ∉ name := fun hmem => by cases hname '\n' hmem
  have hrest : '\n' ∉ remark := by
    cases hremark with
    | none => exact List.not_mem_nil
    | text => simpa using htext
  simp [paramLine, hwritten, htype, hmarks, hvariable, hrest]

theorem readTag_paramLine {analyser : String} (hanalyser : analyser ∈ analysers) {t : TypeExpr}
    (hread : TypeExpr.parse t.render = .ok t) (hclosed : TypeExpr.QuotesClosed t.render.toList)
    (hthis : ¬ "$this".toList <+: t.render.toList) :
    readTag (paramLine (analyser ++ "param") t.render.toList marker name remark) =
      ⟨.param, analyser != "", .typed t, some (.ofList name), .ofList text⟩ := by
  obtain ⟨hchars, hplain⟩ := plain_param analyser hanalyser
  have hkind : typedKind? "param" = some .param := rfl
  rw [paramLine, readTag_of_typedKind (List.all_eq_true.mp hchars) hplain hkind]
  -- were there blanks in front of the type, it would be read without them
  rw [TypeExpr.parse_eq_read] at hread
  have hread' := TypeExpr.read_trimStart hread
  have hclosed' : TypeExpr.QuotesClosed (trimStart t.render.toList) := by
    unfold TypeExpr.QuotesClosed
    rwa [TypeExpr.tokensOf_trimStart]
  obtain ⟨c, cs, hstart⟩ : ∃ c cs, trimStart t.render.toList = c :: cs := by
    refine List.exists_cons_of_ne_nil fun hnil => ?_
    rw [hnil] at hread'
    cases hread'
  have hc : isBlank c = false :=
    not_of_head?_dropWhile (p := isBlank) (by rw [← trimStart, hstart]; rfl)
  have hbody : trimStart (t.render.toList ++ ' ' :: (marker.toList ++ '$' :: (name ++ remark))) =
      c :: cs ++ ' ' :: (marker.toList ++ '$' :: (name ++ remark)) := by
    rw [trimStart, List.dropWhile_append, ← trimStart, hstart]
    rfl
  rw [hstart] at hread' hclosed'
  rw [hbody]
  exact readTypedTag_parameter hmarker hname hremark hc hread' hclosed' hthis _

end Line

/--
A comment with one tag for a parameter: a type as it is written, the marks of the parameter, its
name and a text. The tag has that type, that name and that text, and an analyser's name in front of
`param` is noted.
-/
theorem parse_param_tag {t : TypeExpr} (hread : TypeExpr.parse t.render = .ok t)
    (hclosed : TypeExpr.QuotesClosed t.render.toList)
    (hthis : ¬ "$this".toList <+: t.render.toList) (hline : '\n' ∉ t.render.toList)
    {analyser : String} (hanalyser : analyser ∈ analysers) {marker : String}
    (hmarker : marker ∈ TypeExpr.parameterMarks) {name : String}
    (hname : ∀ c ∈ name.toList, isVariableChar c = true) {text : String}
    (htext : trimText text = text) (hbreak : '\n' ∉ text.toList) :
    parse (paramComment analyser t.render marker name text) =
      ⟨[], [], [⟨.param, analyser != "", .typed t, some name, text⟩]⟩ := by
  have htrim : trim text.toList = text.toList := by
    have hchars := congrArg String.toList htext
    rwa [trimText, String.toList_ofList] at hchars
  obtain ⟨remark, pad, hsplit, hremark, hpad, hpadBreak⟩ := exists_remark htrim
  have hwritten : '\n' ∉ (analyser ++ "param").toList := fun hmem => by
    cases List.all_eq_true.mp (plain_param analyser hanalyser).1 '\n' hmem
  have htight := tight_paramLine hmarker hname hremark (analyser ++ "param") t.render.toList
  have hnoBreak := not_mem_paramLine hmarker hname hremark hwritten hline hbreak
  have htag := readTag_paramLine hmarker hname hremark hanalyser hread hclosed hthis
  rw [String.ofList_toList, String.ofList_toList] at htag
  rw [parse, toList_paramComment _ _ _ _ hsplit,
    read_of_inline htight rfl hnoBreak hpad hpadBreak, htag]
  rw [htag]
  exact TagKind.noConfusion

/-- An intersection before an `&` that is not part of it, and a literal with a blank. -/
theorem parse_param_tag_reference :
    let t := TypeExpr.inter [.literal (.text "'a b'"), .name "A"]
    TypeExpr.parse t.render = .ok t ∧
      parse "/** @psalm-param 'a b'&A &...$rest all others */" =
        ⟨[], [], [⟨.param, true, .typed t, some "rest", "all others"⟩]⟩ := by
  intro t
  have hread : TypeExpr.parse t.render = .ok t := by decide +kernel
  have hclosed : TypeExpr.QuotesClosed t.render.toList := by
    have htokens : TypeExpr.tokensOf t.render.toList =
        [.quoted "'a b'", .punct '&', .ident "A"] := by
      decide +kernel
    intro text htext
    rw [htokens] at htext
    obtain rfl : text = "'a b'" := by simpa using htext
    decide +kernel
  have hthis : ¬ "$this".toList <+: t.render.toList := by decide +kernel
  have hline : '\n' ∉ t.render.toList := by decide +kernel
  have hanalyser : "psalm-" ∈ analysers := by decide
  have hmarker : "&..." ∈ TypeExpr.parameterMarks := by decide
  have hname : ∀ c ∈ "rest".toList, isVariableChar c = true :=
    List.all_eq_true.mp (by decide +kernel)
  have htext : trimText "all others" = "all others" := by decide +kernel
  have hbreak : '\n' ∉ "all others".toList := by decide +kernel
  have hraw : paramComment "psalm-" t.render "&..." "rest" "all others" =
      "/** @psalm-param 'a b'&A &...$rest all others */" := by decide +kernel
  have htag := parse_param_tag hread hclosed hthis hline hanalyser hmarker hname htext hbreak
  rw [hraw] at htag
  exact ⟨hread, htag⟩

end Docblock

end ClassDocs

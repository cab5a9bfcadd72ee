import ClassDocs.Docblock.Reader
import ClassDocs.Proofs.Trimming
import ClassDocs.Proofs.TypePrefix

/-!
# The type a tag starts with

A tag such as `@return` carries a type and no variable. Whatever type stands at the start of its
text is the type of the tag, and the text behind the type is the text of the tag, in either layout
of the comment and in every spelling of the tag's name. The one exception is `$this`: a text that
starts with a dollar sign is taken for a variable before anything else, also by the tags that have
none, so that the type `$this` is never kept (`parse_typed_tag`).
-/

namespace ClassDocs

open Text

namespace TypeExpr

/-! ## Where a type starts -/

/-- The tokens a type may start with. -/
def opensType : Token → Bool
  | .ident _ | .quoted _ | .number _ => true
  | .variable text => text == "$this"
  | .punct c => c == '?' || c == '(' || c == '*'
  | .ellipsis | .other _ => false

theorem opensType_of_readAtom {depth : Nat} {ts : List Lexeme} {r : TypeExpr × List Lexeme}
    (h : readAtom depth ts = .ok r) : ∃ token, peek ts = some token ∧ opensType token = true := by
  cases depth with
  | zero => cases h
  | succ depth =>
    unfold readAtom at h
    split at h
    case h_8 => cases h
    all_goals exact ⟨_, by assumption, rfl⟩

theorem opensType_of_readPrefix {input : List Char} {r : TypeExpr × Nat}
    (h : readPrefix input = .ok r) :
    ∃ token, peek (lexemes input) = some token ∧ opensType token = true := by
  -- The reader of unions goes down to that of atoms before it takes a token.
  obtain ⟨_, hunion, -⟩ := exists_of_bind_eq_ok h
  obtain ⟨_, hintersection, -⟩ := exists_of_bind_eq_ok hunion
  obtain ⟨_, hpostfix, -⟩ := exists_of_bind_eq_ok hintersection
  obtain ⟨_, hatom, -⟩ := exists_of_bind_eq_ok hpostfix
  exact opensType_of_readAtom hatom

theorem peek_lexemes {c : Char} (h : isBlank c = false) (cs : List Char) :
    peek (lexemes (c :: cs)) = some (tokenAt c cs) := by
  have htokens := tokensFrom_cons h 0 cs
  exact congrArg peek htokens

end TypeExpr

namespace Docblock

/-! ## The layout of a comment -/

/-- A comment with one line of text: all in one line, or under each other with an asterisk in
front. -/
inductive Holds (line : List Char) : List Char → Prop where
  | inline : Holds line ("/**".toList ++ ([' '] ++ line ++ [' ']) ++ "*/".toList)
  | block {indent : List Char} : (∀ c ∈ indent, isBlank c = true) → '\n' ∉ indent →
      Holds line
        ("/**".toList ++ '\n' :: (indent ++ ['*', ' '] ++ line ++ '\n' :: indent) ++ "*/".toList)

theorem commentLines_delimited (inner : List Char) :
    commentLines ("/**".toList ++ inner ++ "*/".toList) = (lines inner).map cleanLine := by
  have htight : Tight ("/**".toList ++ inner ++ "*/".toList) :=
    Tight.append ⟨⟨'/', rfl, rfl⟩, ⟨'*', rfl, rfl⟩⟩ ⟨⟨'*', rfl, rfl⟩, ⟨'/', rfl, rfl⟩⟩ inner
  rw [commentLines, htight.trim_eq, List.append_assoc, dropPrefix?_append, Option.getD_some,
    dropSuffix?_append, Option.getD_some]

theorem cleanLine_blank {line : List Char} (h : ∀ c ∈ line, isBlank c = true) :
    cleanLine line = [] := by
  rw [cleanLine, TypeExpr.trim_of_blank h]
  rfl

theorem cleanLine_starred {line : List Char} (htight : Tight line) {before : List Char}
    (hbefore : ∀ c ∈ before, isBlank c = true) :
    cleanLine (before ++ ['*', ' '] ++ line) = line := by
  have hstarred : Tight (['*'] ++ [' '] ++ line) :=
    Tight.append ⟨⟨'*', rfl, rfl⟩, ⟨'*', rfl, rfl⟩⟩ htight [' ']
  have htrim : trim (before ++ ['*', ' '] ++ line) = ['*'] ++ ([' '] ++ line) := by
    simpa using hstarred.trim_pad hbefore (List.forall_mem_nil _)
  rw [cleanLine, htrim, dropPrefix?_append, Option.getD_some, dropPrefix?_append, Option.getD_some]
  exact htight.trimEnd_append []

theorem cleanLine_pad {line : List Char} (htight : Tight line) (hhead : line.head? = some '@')
    {before after : List Char} (hbefore : ∀ c ∈ before, isBlank c = true)
    (hafter : ∀ c ∈ after, isBlank c = true) :
    cleanLine (before ++ line ++ after) = line := by
  have hkept : ∀ d, d ≠ '@' → (dropPrefix? [d] line).getD line = line := by
    intro d hd
    rw [dropPrefix?_of_head?_ne (by simpa [hhead] using hd.symm), Option.getD_none]
  rw [cleanLine, htight.trim_pad hbefore hafter, hkept '*' (by decide), hkept ' ' (by decide)]
  exact htight.trimEnd_append []

theorem commentLines_inline {line : List Char} (htight : Tight line)
    (hhead : line.head? = some '@') (hline : '\n' ∉ line) {after : List Char}
    (hafter : ∀ c ∈ after, isBlank c = true) (hbreak : '\n' ∉ after) :
    commentLines ("/**".toList ++ ([' '] ++ line ++ after) ++ "*/".toList) = [line] := by
  have hspace : ∀ c ∈ [' '], isBlank c = true := List.forall_mem_singleton.mpr rfl
  rw [commentLines_delimited, lines_of_not_mem (by simp [hline, hbreak]) (by simp),
    List.map_singleton, cleanLine_pad htight hhead hspace hafter]

/-- The lines of a comment that holds one line are that line, with empty lines around it if there
are more. -/
theorem commentLines_of_holds {line : List Char} (htight : Tight line)
    (hhead : line.head? = some '@') (hline : '\n' ∉ line) {raw : List Char} (h : Holds line raw) :
    commentLines raw = [line] ∨ commentLines raw = [[], line] ∨
      commentLines raw = [[], line, []] := by
  cases h with
  | inline =>
    exact .inl
      (commentLines_inline htight hhead hline (List.forall_mem_singleton.mpr rfl) (by decide))
  | @block indent hindent hbreak =>
    have hfirst : cleanLine (dropReturn []) = [] := rfl
    right
    rw [commentLines_delimited, ← List.nil_append ('\n' :: _), lines_append List.not_mem_nil,
      lines_append (by simp [hbreak, hline]), htight.dropReturn_append, List.map_cons,
        List.map_cons,
      cleanLine_starred htight hindent, hfirst]
    cases indent with
    | nil => exact .inl rfl
    | cons c cs =>
      rw [lines_of_not_mem hbreak (List.cons_ne_nil c cs), List.map_singleton,
        cleanLine_blank hindent]
      exact .inr rfl

/-- A comment that holds the line of one tag has no free text and no other tag. -/
theorem sections_of_holds {line : List Char} (htight : Tight line) (hhead : line.head? = some '@')
    (hline : '\n' ∉ line) {raw : List Char} (h : Holds line raw) :
    ∃ text chunk, sections (commentLines raw) = (text, [chunk]) ∧ joinLines text = [] ∧
      trimEnd chunk = line := by
  have hend : trimEnd line = line := htight.trimEnd_append []
  rcases commentLines_of_holds htight hhead hline h with hlines | hlines | hlines
  · exact ⟨[], line, by simp [hlines, sections, hhead, joinLines], rfl, hend⟩
  · exact ⟨[[]], line, by simp [hlines, sections, hhead, joinLines], rfl, hend⟩
  · refine ⟨[[]], line ++ ['\n'], by simp [hlines, sections, hhead, joinLines], rfl, ?_⟩
    rw [trimEnd_append_blanks (List.forall_mem_singleton.mpr rfl), hend]

theorem read_of_sections {raw line chunk : List Char} {text : List (List Char)}
    (h : sections (commentLines raw) = (text, [chunk])) (htext : joinLines text = [])
    (hchunk : trimEnd chunk = line) (hkind : (readTag line).kind ≠ .inheritDoc) :
    read raw = ⟨[], [], [readTag line]⟩ := by
  have hmarker : tagMarker? chunk = none := by
    rw [tagMarker?, hchunk, if_neg (by simpa using hkind)]
  rw [read, h]
  simp only [htext, List.filterMap_cons, hmarker, List.map_cons, hchunk]
  rfl

/-- A comment in one line, with any number of blanks behind the line of its tag. -/
theorem read_of_inline {line : List Char} (htight : Tight line) (hhead : line.head? = some '@')
    (hline : '\n' ∉ line) {after : List Char} (hafter : ∀ c ∈ after, isBlank c = true)
    (hbreak : '\n' ∉ after) (hkind : (readTag line).kind ≠ .inheritDoc) :
    read ("/**".toList ++ ([' '] ++ line ++ after) ++ "*/".toList) = ⟨[], [], [readTag line]⟩ := by
  have hsections :
      sections (commentLines ("/**".toList ++ ([' '] ++ line ++ after) ++ "*/".toList)) =
          ([], [line]) := by
    rw [commentLines_inline htight hhead hline hafter hbreak]
    simp [sections, hhead, joinLines]
  exact read_of_sections hsections rfl (htight.trimEnd_append []) hkind

theorem read_of_holds {line : List Char} (htight : Tight line) (hhead : line.head? = some '@')
    (hline : '\n' ∉ line) {raw : List Char} (h : Holds line raw)
    (hkind : (readTag line).kind ≠ .inheritDoc) :
    read raw = ⟨[], [], [readTag line]⟩ := by
  obtain ⟨text, chunk, hsections, htext, hchunk⟩ := sections_of_holds htight hhead hline h
  exact read_of_sections hsections htext hchunk hkind

/-! ## The name of a tag -/

/-- The tags that carry a type and no variable. -/
def typeTags : List (String × TagKind) :=
  [("return", .result), ("returns", .result), ("throws", .throws), ("throw", .throws),
    ("extends", .extends), ("template-extends", .extends), ("implements", .implements),
      ("template-implements", .implements)]

/-- What may stand in front of the name of a tag. -/
def analysers : List String := ["", "phpstan-", "psalm-"]

theorem plain_typeTags : ∀ tag ∈ typeTags, ∀ analyser ∈ analysers,
    plainName (analyser ++ tag.1).toList = (analyser != "", tag.1) ∧
      typedKind? tag.1 = some tag.2 ∧
      tag.2 ∉ [.param, .var, .inheritDoc] ∧
        (analyser ++ tag.1).toList.all (!endsTagName ·) = true := by
  decide +kernel

theorem not_endsTagName_of_lower {written name : String} (h : lower written = name)
    (hname : name.toList.all (!endsTagName ·) = true) :
    ∀ c ∈ written.toList, (!endsTagName c) = true := by
  intro c hc
  rw [← TypeExpr.apply_toLower (p := endsTagName) (by decide +kernel) c]
  apply List.all_eq_true.mp hname
  rw [← h, lower, String.toList_ofList]
  exact List.mem_map_of_mem hc

/-- A tag whose text starts with a type is read from the first character behind its name on. -/
theorem readTag_of_typedKind {written name : String} {forAnalyser : Bool} {kind : TagKind}
    (hchars : ∀ c ∈ written.toList, (!endsTagName c) = true)
    (hname : plainName (written.toList.map Char.toLower) = (forAnalyser, name))
    (hkind : typedKind? name = some kind) (body : List Char) :
    readTag ('@' :: (written.toList ++ ' ' :: body)) =
      readTypedTag kind forAnalyser (trimStart body) := by
  have htake : (written.toList ++ ' ' :: body).takeWhile (!endsTagName ·) = written.toList := by
    rw [List.takeWhile_append_of_pos hchars, List.takeWhile_cons_of_neg (by decide),
      List.append_nil]
  have hdrop : trimStart ((written.toList ++ ' ' :: body).dropWhile (!endsTagName ·)) =
      trimStart body := by
    rw [List.dropWhile_append_of_pos hchars, List.dropWhile_cons_of_neg (by decide), trimStart,
      List.dropWhile_cons_of_pos rfl]
    rfl
  rw [readTag, List.drop_one, List.tail_cons]
  simp only [htake, hdrop, hname, hkind]

/-- A tag whose text is a type and no variable keeps what is read at the start of its text. -/
theorem readTag_typeTag {tag : String × TagKind} (htag : tag ∈ typeTags) {analyser : String}
    (hanalyser : analyser ∈ analysers) {written : String}
    (hwritten : lower written = analyser ++ tag.1) {body : List Char} (hbody : Tight body) :
    readTag ('@' :: (written.toList ++ ' ' :: body)) =
      ⟨tag.2, analyser != "", (readTagType body).1, none,
        .ofList (trim (readTagType body).2)⟩ := by
  obtain ⟨hname, hkind, hplain, hchars⟩ := plain_typeTags tag htag analyser hanalyser
  have hfolded : written.toList.map Char.toLower = (analyser ++ tag.1).toList := by
    rw [← hwritten, lower, String.toList_ofList]
  have hnoVariable : (tag.2 == .param || tag.2 == .var) = false := by
    simp_all
  rw [readTag_of_typedKind (not_endsTagName_of_lower hwritten hchars) (hfolded ▸ hname) hkind,
    hbody.trimStart_eq]
  simp only [readTypedTag, hnoVariable, Bool.false_eq_true, if_false, trim_trimStart]

/-! ## The type of a tag -/

/-- A text that starts with a type does not start with the mark of a parameter, and with a variable
only if that is `$this`. -/
theorem starts_of_opensType {c : Char} {cs : List Char}
    (h : TypeExpr.opensType (TypeExpr.tokenAt c cs) = true) :
    isParameterMark c = false ∧ (c = '$' → "$this".toList <+: c :: cs) := by
  constructor
  · rw [Bool.eq_false_iff]
    intro hmark
    rcases (Bool.or_eq_true _ _).mp hmark with hamp | hdot
    · obtain rfl := beq_iff_eq.mp hamp
      rw [TypeExpr.tokenAt_punct (by decide)] at h
      cases h
    · obtain rfl := beq_iff_eq.mp hdot
      have htoken : TypeExpr.tokenAt '.' cs = if ['.', '.'].isPrefixOf cs then .ellipsis else
          .other '.' := rfl
      rw [htoken] at h
      split at h <;> cases h
  · rintro rfl
    have htoken : TypeExpr.tokenAt '$' cs =
        .variable (.ofList ('$' :: TypeExpr.nameAt false cs)) := rfl
    rw [htoken] at h
    have hthis : '$' :: TypeExpr.nameAt false cs = "$this".toList := by
      rw [← beq_iff_eq.mp h, String.toList_ofList]
    rw [← hthis]
    exact List.cons_prefix_cons.mpr ⟨rfl, TypeExpr.isPrefix_nameAt false cs⟩

/-- The type at the start of a tag's text is its type, unless the text starts with `$this`. -/
theorem readTagType_of_readPrefix {body : List Char} (hbody : Tight body) {t : TypeExpr} {n : Nat}
    (h : TypeExpr.readPrefix body = .ok (t, n)) : readTagType body =
      if "$this".toList <+: body then (.untyped, body) else (.typed t, dropBytes n body) := by
  obtain ⟨c, hc, hblank⟩ := hbody.first
  obtain ⟨cs, rfl⟩ := List.head?_eq_some_iff.mp hc
  obtain ⟨token, hpeek, hopens⟩ := TypeExpr.opensType_of_readPrefix h
  obtain rfl := Option.some.inj ((TypeExpr.peek_lexemes hblank cs).symm.trans hpeek)
  obtain ⟨hmark, hvariable⟩ := starts_of_opensType hopens
  have hdollar : ((c :: cs).dropWhile isParameterMark).head? = some '$' ↔
      "$this".toList <+: c :: cs := by
    rw [List.dropWhile_cons_of_neg (by simp [hmark]), List.head?_cons, Option.some.injEq]
    refine ⟨hvariable, fun hthis => ?_⟩
    exact (List.cons_prefix_cons.mp hthis).1.symm
  by_cases hthis : "$this".toList <+: c :: cs
  · rw [readTagType, if_pos hthis, if_pos (by simp [hdollar.mpr hthis])]
  · rw [readTagType, if_neg hthis, if_neg (by simpa [hdollar] using hthis),
      TypeExpr.prefixOf_eq_readPrefix, h]

/-- The line of a tag: its name as written, a blank and its text. -/
def tagLine (written body : String) : List Char := '@' :: (written.toList ++ ' ' :: body.toList)

theorem tight_tagLine (written : String) {body : String} (hbody : Tight body.toList) :
    Tight (tagLine written body) := by
  have hat : Tight ['@'] := ⟨⟨'@', rfl, rfl⟩, ⟨'@', rfl, rfl⟩⟩
  simpa [tagLine] using hat.append hbody (written.toList ++ [' '])

/-- A comment with one tag that carries a type and no variable, with a text that starts with a
type: the tag has that type and the text behind it. A text that starts with the type `$this` is the
exception: it is kept as it is, and the tag has no type. -/
theorem parse_typed_tag {tag : String × TagKind} (htag : tag ∈ typeTags) {analyser : String}
    (hanalyser : analyser ∈ analysers) {written : String}
    (hwritten : lower written = analyser ++ tag.1) {body : String} (hbody : trimText body = body)
    (hline : '\n' ∉ body.toList) {t : TypeExpr} {n : Nat}
    (h : TypeExpr.parsePrefix body = .ok (t, n)) {raw : String}
    (hraw : Holds (tagLine written body) raw.toList) :
    (¬ "$this".toList <+: body.toList → parse raw =
      ⟨[], [],
        [⟨tag.2, analyser != "", .typed t, none, trimText (.ofList (dropBytes n body.toList))⟩]⟩) ∧
    ("$this".toList <+: body.toList →
      parse raw = ⟨[], [], [⟨tag.2, analyser != "", .untyped, none, body⟩]⟩) := by
  obtain ⟨-, -, hplain, hchars⟩ := plain_typeTags tag htag analyser hanalyser
  rw [TypeExpr.parsePrefix_eq_readPrefix] at h
  have htrim : trim body.toList = body.toList := by
    have hchars := congrArg String.toList hbody
    rwa [trimText, String.toList_ofList] at hchars
  have htight : Tight body.toList := by
    refine tight_of_trim (fun hempty => ?_) htrim
    rw [hempty] at h
    cases h
  have hnoBreak : '\n' ∉ tagLine written body := by
    have hname : '\n' ∉ written.toList :=
      fun hmem => by cases not_endsTagName_of_lower hwritten hchars '\n' hmem
    simp [tagLine, hname, hline]
  have hread := readTag_typeTag htag hanalyser hwritten htight
  have hkind : (readTag (tagLine written body)).kind ≠ .inheritDoc := by
    rw [tagLine, hread]
    simp_all
  rw [parse, read_of_holds (tight_tagLine written htight) rfl hnoBreak hraw hkind, tagLine, hread,
    readTagType_of_readPrefix htight h]
  refine ⟨fun hthis => ?_, fun hthis => ?_⟩
  · rw [if_neg hthis, trimText, String.toList_ofList]
  · rw [if_pos hthis, htrim, String.ofList_toList]

/-- The name of a tag in any letter case, behind that of an analyser, in a comment over several
lines. -/
theorem parse_typed_tag_block :
    parse "/**\n  * @Psalm-Returns ?A it\n  */" =
      ⟨[], [], [⟨.result, true, .typed (.nullable (.name "A")), none, "it"⟩]⟩ := by
  have htag : ("returns", TagKind.result) ∈ typeTags := by decide
  have hanalyser : "psalm-" ∈ analysers := by decide
  have hwritten : lower "Psalm-Returns" = "psalm-" ++ "returns" := by decide +kernel
  have hbody : trimText "?A it" = "?A it" := by decide +kernel
  have hline : '\n' ∉ "?A it".toList := by decide +kernel
  have hprefix : TypeExpr.parsePrefix "?A it" = .ok (.nullable (.name "A"), 2) := by decide +kernel
  have hraw :
      Holds (tagLine "Psalm-Returns" "?A it") "/**\n  * @Psalm-Returns ?A it\n  */".toList := by
    have hblock : "/**\n  * @Psalm-Returns ?A it\n  */".toList = "/**".toList ++ '\n' ::
        ([' ', ' '] ++ ['*', ' '] ++ tagLine "Psalm-Returns" "?A it" ++ '\n' :: [' ', ' ']) ++
            "*/".toList := by
      decide +kernel
    rw [hblock]
    exact .block (by simp [isBlank]) (by simp)
  have hrest : trimText (.ofList (dropBytes 2 "?A it".toList)) = "it" := by decide +kernel
  have htyped :=
    (parse_typed_tag htag hanalyser hwritten hbody hline hprefix hraw).1 (by decide +kernel)
  rw [hrest] at htyped
  exact htyped

/-- `$this` is a type, and no tag keeps it. -/
theorem parse_tag_this :
    TypeExpr.parsePrefix "$this" = .ok (.name "$this", 5) ∧
      (parse "/** @return $this */").tags.map (fun tag => (tag.kind, tag.type?.isSome, tag.text)) =
        [(.result, false, "$this")] :=
  ⟨by decide +kernel, by decide +kernel⟩

end Docblock

end ClassDocs

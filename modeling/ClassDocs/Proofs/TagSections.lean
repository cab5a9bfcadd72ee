import ClassDocs.Proofs.TypedTags

/-!
# Tags do not disturb each other

A tag is read from its own line and the lines behind it up to the next tag. So the lines of a
comment can be cut in front of any line that starts with `@`: the tags of the whole are those of
the two parts, the free text is that of the first part, and all that a later tag adds to the
description is the marker of an `@inheritDoc` (`parse_append`).

The layout of the comment is where this could go wrong. The delimiters leave an empty line at
each end, and the last one becomes a part of whatever comes last, a tag or the free text. It is
taken off again because both are trimmed at their end.
-/

namespace ClassDocs.Docblock

open Text

/-! ## Sections of a list of lines -/

/-- Lines that start with a tag begin a section of their own, whatever stands before them. -/
theorem sections_append (ls : List (List Char)) {ms : List (List Char)}
    (h : ms.head?.bind List.head? = some '@') :
    sections (ls ++ ms) = ((sections ls).1, (sections ls).2 ++ (sections ms).2) := by
  induction ls with
  | nil =>
    cases ms with
    | nil => cases h
    | cons line rest =>
      have hat : (line.head? == some '@') = true := beq_iff_eq.mpr h
      simp only [List.nil_append, sections, hat, if_true]
  | cons line ls ih =>
    simp only [List.cons_append, sections, ih]
    split
    · rfl
    · rfl

/-- The free text is made of the lines before the first tag. -/
theorem sections_fst (ls : List (List Char)) :
    (sections ls).1 = ls.takeWhile (·.head? != some '@') := by
  induction ls with
  | nil => rfl
  | cons line ls ih =>
    simp only [sections]
    by_cases hat : line.head? = some '@'
    · simp [hat]
    · simp [hat, ih]

theorem joinLines_cons (line : List Char) {ls : List (List Char)} (h : ls ≠ []) :
    joinLines (line :: ls) = line ++ '\n' :: joinLines ls := by
  obtain ⟨next, rest, rfl⟩ := List.exists_cons_of_ne_nil h
  simp [joinLines]

theorem joinLines_append {ls ms : List (List Char)} (hls : ls ≠ []) (hms : ms ≠ []) :
    joinLines (ls ++ ms) = joinLines ls ++ '\n' :: joinLines ms := by
  induction ls with
  | nil => exact absurd rfl hls
  | cons line rest ih =>
    by_cases hrest : rest = []
    · subst hrest
      rw [List.singleton_append, joinLines_cons line hms]
      simp [joinLines]
    · rw [List.cons_append, joinLines_cons line (by simp [hms]), ih hrest,
        joinLines_cons line hrest]
      simp

/-- An empty line at the end of other lines is a line feed. -/
theorem joinLines_snoc_nil {ls : List (List Char)} (h : ls ≠ []) :
    joinLines (ls ++ [[]]) = joinLines ls ++ ['\n'] := by
  rw [joinLines_append h (List.cons_ne_nil _ _)]
  simp [joinLines]

theorem trim_joinLines_snoc_nil (ls : List (List Char)) :
    trim (joinLines (ls ++ [[]])) = trim (joinLines ls) := by
  by_cases h : ls = []
  · subst h
    rfl
  · have hfeed : ∀ c ∈ ['\n'], isBlank c = true := List.forall_mem_singleton.mpr rfl
    rw [joinLines_snoc_nil h, trim_append_blanks hfeed]

/-- An empty line at the end belongs to the last tag, or to the free text if there is no tag. -/
theorem sections_snoc_nil (ls : List (List Char)) :
    ((sections (ls ++ [[]])).1 = (sections ls).1 ∨
      (sections (ls ++ [[]])).1 = (sections ls).1 ++ [[]]) ∧
      (sections (ls ++ [[]])).2.map trimEnd = (sections ls).2.map trimEnd := by
  induction ls with
  | nil => exact ⟨.inr rfl, rfl⟩
  | cons line ls ih =>
    obtain ⟨htext, hchunks⟩ := ih
    simp only [List.cons_append, sections]
    split
    · refine ⟨.inl rfl, ?_⟩
      rw [List.map_cons, List.map_cons, hchunks]
      rcases htext with htext | htext
      · rw [htext]
      · -- the lines of this tag end in one more line feed
        have hfeed : ∀ c ∈ ['\n'], isBlank c = true := List.forall_mem_singleton.mpr rfl
        rw [htext, ← List.cons_append, joinLines_snoc_nil (List.cons_ne_nil _ _),
          trimEnd_append_blanks hfeed]
    · refine ⟨?_, hchunks⟩
      rcases htext with htext | htext
      · exact .inl (by rw [htext])
      · exact .inr (by rw [htext, List.cons_append])

/-! ## What is read from the sections -/

/-- A doc comment from its free text and the lines of each tag. -/
def ofSections (text : List Char) (chunks : List (List Char)) : Docblock where
  summary := spansOf (splitSummary text).1
  description := spansOf (splitSummary text).2 ++ chunks.filterMap tagMarker?
  tags := chunks.map readTag

theorem firstWord_append_blanks {pad : List Char} (hpad : ∀ c ∈ pad, isBlank c = true)
    (cs : List Char) :
    firstWord (cs ++ pad) = firstWord cs := by
  have hhead : pad.head?.any (!isBlank ·) = false := by
    cases pad with
    | nil => rfl
    | cons c pad => simp [hpad c List.mem_cons_self]
  unfold firstWord trimStart
  rw [List.dropWhile_append]
  split
  · rename_i hempty
    rw [List.isEmpty_iff.mp hempty, List.dropWhile_eq_nil_iff.mpr hpad]
  · exact TypeExpr.takeWhile_append hhead _

theorem tagMarker?_trimEnd (chunk : List Char) :
    tagMarker? (trimEnd chunk) = tagMarker? chunk := by
  obtain ⟨pad, hpad, hchunk⟩ := exists_of_trimEnd chunk
  have hword : firstWord (trimEnd chunk) = firstWord chunk := by
    conv_rhs => rw [hchunk, firstWord_append_blanks hpad]
  unfold tagMarker?
  rw [trimEnd_trimEnd, hword]

theorem filterMap_tagMarker? (chunks : List (List Char)) :
    (chunks.map trimEnd).filterMap tagMarker? = chunks.filterMap tagMarker? := by
  induction chunks with
  | nil => rfl
  | cons chunk chunks ih => simp only [List.map_cons, List.filterMap_cons, tagMarker?_trimEnd, ih]

/-- Only the free text without the white space around it and the tags without the white space
behind them count. -/
theorem read_eq_ofSections (raw : List Char) :
    read raw = ofSections (trim (joinLines (sections (commentLines raw)).1))
      ((sections (commentLines raw)).2.map trimEnd) := by
  rcases hsections : sections (commentLines raw) with ⟨text, chunks⟩
  unfold read ofSections
  rw [hsections, filterMap_tagMarker?, List.map_map]
  rfl

/-- Each `@inheritDoc` tag, and no other, puts one marker at the end of the description. -/
theorem forall₂_tagMarker? (chunks : List (List Char)) :
    List.Forall₂ (fun _ span => Span.isMarker span = true)
      (((chunks.map trimEnd).map readTag).filter (·.kind == .inheritDoc))
        (chunks.filterMap tagMarker?) := by
  induction chunks with
  | nil => exact .nil
  | cons chunk chunks ih =>
    simp only [List.map_cons, List.filter_cons, List.filterMap_cons, tagMarker?]
    split
    · exact .cons rfl ih
    · exact ih

/-! ## A comment with a line behind each asterisk -/

/-- A line of a comment: no line feed in it and no white space at its end. -/
structure PlainLine (line : List Char) : Prop where
  noBreak : '\n' ∉ line
  noTail : trimEnd line = line

instance (line : List Char) : Decidable (PlainLine line) :=
  decidable_of_iff ('\n' ∉ line ∧ trimEnd line = line)
    ⟨fun h => ⟨h.1, h.2⟩, fun h => ⟨h.noBreak, h.noTail⟩⟩

/-- The lines under each other, each behind an asterisk. -/
def starred (ls : List (List Char)) : List Char :=
  ls.flatMap fun line => [' ', '*', ' '] ++ line ++ ['\n']

/-- The comment that has these lines. -/
def block (ls : List String) : String :=
  .ofList ("/**".toList ++ ('\n' :: (starred (ls.map String.toList) ++ [' '])) ++ "*/".toList)

theorem PlainLine.cleanLine_eq {line : List Char} (h : PlainLine line) :
    cleanLine ([' ', '*', ' '] ++ line) = line := by
  cases line with
  | nil => decide
  | cons c cs =>
    have hend : trimEnd (['*', ' '] ++ c :: cs) = ['*', ' '] ++ c :: cs := by
      rw [trimEnd_append (by rw [h.noTail]; simp), h.noTail]
    have htrim : trim ([' ', '*', ' '] ++ c :: cs) = ['*'] ++ ([' '] ++ c :: cs) := hend
    rw [cleanLine, htrim, dropPrefix?_append, Option.getD_some, dropPrefix?_append,
      Option.getD_some, h.noTail]

theorem PlainLine.dropReturn_eq {line : List Char} (h : PlainLine line) :
    dropReturn ([' ', '*', ' '] ++ line) = [' ', '*', ' '] ++ line := by
  cases line with
  | nil => rfl
  | cons c cs =>
    have hne : trimEnd (c :: cs) ≠ [] := by rw [h.noTail]; exact List.cons_ne_nil _ _
    obtain ⟨d, hlast⟩ := Option.ne_none_iff_exists'.mp (mt List.getLast?_eq_none_iff.mp hne)
    have hblank : isBlank d = false := not_of_getLast?_dropEndWhile hlast
    rw [h.noTail] at hlast
    unfold dropReturn
    rw [List.getLast?_append, hlast, Option.some_or]
    split
    · rename_i heq
      obtain rfl := Option.some.inj heq
      cases hblank
    · rfl

theorem lines_starred {ls : List (List Char)} (h : ∀ line ∈ ls, PlainLine line) :
    (lines (starred ls ++ [' '])).map cleanLine = ls ++ [[]] := by
  induction ls with
  | nil => rfl
  | cons line ls ih =>
    rw [List.forall_mem_cons] at h
    have hbreak : '\n' ∉ [' ', '*', ' '] ++ line := by simp [h.1.noBreak]
    have hfirst : starred (line :: ls) ++ [' '] =
        ([' ', '*', ' '] ++ line) ++ '\n' :: (starred ls ++ [' ']) := by
      simp [starred]
    rw [hfirst, lines_append hbreak, List.map_cons, h.1.dropReturn_eq, h.1.cleanLine_eq, ih h.2,
      List.cons_append]

/-- The lines come back, between two empty ones. -/
theorem commentLines_block {ls : List String} (h : ∀ line ∈ ls, PlainLine line.toList) :
    commentLines (block ls).toList = [] :: (ls.map String.toList ++ [[]]) := by
  have hls : ∀ line ∈ ls.map String.toList, PlainLine line := by simpa using h
  have hfirst : lines ('\n' :: (starred (ls.map String.toList) ++ [' '])) =
      [] :: lines (starred (ls.map String.toList) ++ [' ']) := lines_append List.not_mem_nil _
  have htext : (block ls).toList =
      "/**".toList ++ ('\n' :: (starred (ls.map String.toList) ++ [' '])) ++ "*/".toList :=
        String.toList_ofList
  rw [htext, commentLines_delimited, hfirst, List.map_cons, lines_starred hls]
  rfl

/-- What a comment has in terms of the sections of its lines. -/
theorem parse_block {ls : List String} (h : ∀ line ∈ ls, PlainLine line.toList) :
    parse (block ls) = ofSections (trim (joinLines (sections ([] :: ls.map String.toList)).1))
      ((sections ([] :: ls.map String.toList)).2.map trimEnd) := by
  obtain ⟨htext, hchunks⟩ := sections_snoc_nil ([] :: ls.map String.toList)
  have hjoin : trim (joinLines (sections ([] :: ls.map String.toList ++ [[]])).1) =
      trim (joinLines (sections ([] :: ls.map String.toList)).1) := by
    rcases htext with htext | htext
    · rw [htext]
    · rw [htext, trim_joinLines_snoc_nil]
  rw [parse, read_eq_ofSections, commentLines_block h, ← List.cons_append, hjoin, hchunks]

/--
The lines of a comment may be cut in front of a tag. The tags are those of the two parts, the
summary is that of the first part, and the description is that of the first part with one marker
for each `@inheritDoc` of the second.
-/
theorem parse_append {front back : List String} (hfront : ∀ line ∈ front, PlainLine line.toList)
    (hback : ∀ line ∈ back, PlainLine line.toList)
    (htag : ∃ line, back.head? = some line ∧ line.toList.head? = some '@') :
    (parse (block (front ++ back))).tags = (parse (block front)).tags ++
      (parse (block back)).tags ∧
    (parse (block (front ++ back))).summary = (parse (block front)).summary ∧
    (parse (block (front ++ back))).description =
      (parse (block front)).description ++ (parse (block back)).description ∧
    List.Forall₂ (fun _ span => Span.isMarker span = true)
      ((parse (block back)).tags.filter (·.kind == .inheritDoc))
        (parse (block back)).description := by
  obtain ⟨line, hline, hat⟩ := htag
  have hstarts : (back.map String.toList).head?.bind List.head? = some '@' := by
    rw [List.head?_map, hline]
    exact hat
  have hall : ∀ line ∈ front ++ back, PlainLine line.toList :=
    List.forall_mem_append.mpr ⟨hfront, hback⟩
  have hcut : sections ([] :: (front ++ back).map String.toList) =
      ((sections ([] :: front.map String.toList)).1,
        (sections ([] :: front.map String.toList)).2 ++
            (sections (back.map String.toList)).2) := by
    rw [List.map_append, ← List.cons_append, sections_append _ hstarts]
  have hrest : sections ([] :: back.map String.toList) =
      ([[]], (sections (back.map String.toList)).2) :=
    sections_append [[]] hstarts
  have hempty : spansOf (splitSummary (trim (joinLines [[]]))).2 = [] := rfl
  rw [parse_block hall, parse_block hfront, parse_block hback, hcut, hrest]
  simp only [ofSections, hempty, List.map_append, List.filterMap_append, List.append_assoc,
    List.nil_append, true_and]
  rw [filterMap_tagMarker?]
  exact forall₂_tagMarker? _

/-- A tag with a second line stands before the cut, and an `@inheritDoc` right behind it. -/
theorem parse_append_continued :
    let front := ["Sum.", "", "@see a,", "  b"]
    let back := ["@inheritDoc", "", "@see c"]
    (parse (block (front ++ back))).tags.map (·.text) = ["a,\n  b", "", "c"] ∧
      (parse (block (front ++ back))).tags = (parse (block front)).tags ++
        (parse (block back)).tags ∧
      (parse (block (front ++ back))).description =
        (parse (block front)).description ++ (parse (block back)).description := by
  intro front back
  have hfront : ∀ line ∈ front, PlainLine line.toList := by decide +kernel
  have hback : ∀ line ∈ back, PlainLine line.toList := by decide +kernel
  have hcut := parse_append hfront hback ⟨"@inheritDoc", rfl, by decide⟩
  exact ⟨by decide +kernel, hcut.1, hcut.2.2.1⟩

end ClassDocs.Docblock

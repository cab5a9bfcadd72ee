import ClassDocs.Proofs.InheritChain

/-!
# Comments that are nothing but a marker

A comment whose whole content is a marker passes the ancestor's text on unchanged. The inline form
puts the marker into the summary and leaves the description empty, the tag form does the reverse,
and each of the two texts is taken over by a different rule: one is copied, the other is put in the
place of the marker and trimmed. Both come to the same because every text that a search settles on
is trimmed already (`Settled.trimmed`).
-/

namespace ClassDocs

namespace Docblock

open Text

/-- All that a comment says stands in one line; its other lines are empty. -/
def OnlyLine (raw : String) (line : List Char) : Prop :=
  ∃ before after, commentLines raw.toList = before ++ line :: after ∧
    ∀ other ∈ before ++ after, other = []

/-- The whole content of a comment is one inline marker, or one line of an `@inheritDoc` tag, in
any letter case. -/
inductive BareMarker (raw : String) : Prop where
  | inline {line : List Char} :
      OnlyLine raw line → (trim line).map Char.toLower = "\x7b@inheritdoc\x7d".toList →
      BareMarker raw
  | tag {name rest : List Char} :
      OnlyLine raw ('@' :: (name ++ rest)) → name.map Char.toLower = "inheritdoc".toList →
      (∀ c, rest.head? = some c → endsTagName c = true) → BareMarker raw

/-- Summary and description together are one marker. -/
def MarkerAlone (doc : Docblock) : Prop :=
  ∃ written, (doc.summary = [.marker written] ∧ doc.description = []) ∨
    (doc.summary = [] ∧ doc.description = [.marker written])

/-! ## Empty lines -/

theorem sections_of_untagged {ls : List (List Char)} (h : ∀ line ∈ ls, line.head? ≠ some '@') :
    sections ls = (ls, []) := by
  induction ls with
  | nil => rfl
  | cons line ls ih =>
    rw [List.forall_mem_cons] at h
    have hat : (line.head? == some '@') = false := by simpa using h.1
    simp only [sections, ih h.2, hat, Bool.false_eq_true, if_false]

/-- Empty lines behind a line are line feeds. -/
theorem joinLines_cons_empty {after : List (List Char)} (h : ∀ other ∈ after, other = [])
    (line : List Char) :
    ∃ pad, (∀ c ∈ pad, isBlank c = true) ∧ joinLines (line :: after) = line ++ pad := by
  induction after generalizing line with
  | nil => exact ⟨[], by simp, by simp [joinLines]⟩
  | cons other after ih =>
    obtain ⟨rfl, hafter⟩ := List.forall_mem_cons.mp h
    obtain ⟨pad, hpad, hjoin⟩ := ih hafter []
    refine ⟨'\n' :: pad, List.forall_mem_cons.mpr ⟨rfl, hpad⟩, ?_⟩
    rw [joinLines_cons line (List.cons_ne_nil _ _), hjoin, List.nil_append]

theorem trim_joinLines_empty {ls : List (List Char)} (h : ∀ line ∈ ls, line = []) :
    trim (joinLines ls) = [] := by
  cases ls with
  | nil => rfl
  | cons line after =>
    obtain ⟨rfl, hafter⟩ := List.forall_mem_cons.mp h
    obtain ⟨pad, hpad, hjoin⟩ := joinLines_cons_empty hafter []
    rw [hjoin, List.nil_append, TypeExpr.trim_of_blank hpad]

theorem trim_joinLines_only {before after : List (List Char)}
    (h : ∀ other ∈ before ++ after, other = []) (line : List Char) :
    trim (joinLines (before ++ line :: after)) = trim line := by
  obtain ⟨hbefore, hafter⟩ := List.forall_mem_append.mp h
  induction before with
  | nil =>
    obtain ⟨pad, hpad, hjoin⟩ := joinLines_cons_empty hafter line
    rw [List.nil_append, hjoin, trim_append_blanks hpad]
  | cons other before ih =>
    obtain ⟨rfl, hrest⟩ := List.forall_mem_cons.mp hbefore
    rw [List.cons_append, joinLines_cons [] (by simp)]
    exact ih (List.forall_mem_append.mpr ⟨hrest, hafter⟩) hrest

/-! ## The inline form -/

theorem findMarker_of_atMarker {cs : List Char} (h : atMarker cs = true) :
    findMarker cs = some ([], cs) := by
  cases cs with
  | nil => cases h
  | cons c cs => simp only [findMarker, h, if_true]

theorem throughBrace_of_not_mem {cs : List Char} (h : '\x7d' ∉ cs) :
    throughBrace (cs ++ ['\x7d']) = cs ++ ['\x7d'] := by
  induction cs with
  | nil => rfl
  | cons c cs ih =>
    rw [List.mem_cons, not_or] at h
    have hc : (c == '\x7d') = false := by simpa using Ne.symm h.1
    simp only [List.cons_append, throughBrace, hc, Bool.false_eq_true, if_false, ih h.2]

/-- The brace at the end of a marker is its first one. -/
theorem throughBrace_marker {cs : List Char}
    (h : cs.map Char.toLower = "\x7b@inheritdoc\x7d".toList) :
    throughBrace cs = cs := by
  have hsplit : "\x7b@inheritdoc\x7d".toList = markerStart ++ ['\x7d'] := by decide
  rw [hsplit, List.map_eq_append_iff] at h
  obtain ⟨front, back, rfl, hfront, hback⟩ := h
  obtain ⟨c, rfl, hc⟩ := List.map_eq_singleton_iff.mp hback
  have hbrace := TypeExpr.apply_toLower (p := (· == '\x7d')) (by decide) c
  obtain rfl : c = '\x7d' := by
    rw [hc] at hbrace
    simpa using hbrace.symm
  refine throughBrace_of_not_mem fun hmem => ?_
  have hstart : Char.toLower '\x7d' ∈ markerStart := hfront ▸ List.mem_map_of_mem hmem
  exact absurd hstart (by decide)

theorem spansOf_marker {cs : List Char} (h : cs.map Char.toLower = "\x7b@inheritdoc\x7d".toList) :
    spansOf cs = [.marker (.ofList cs)] := by
  have hat : atMarker cs = true := by
    rw [atMarker_iff, h]
    decide
  have hnone : ∀ count, cutMarkers count [] = [] := by
    intro count
    cases count with
    | zero => rfl
    | succ count => rfl
  obtain ⟨count, hcount⟩ : ∃ n, cs.length = n + 1 := by
    have hlength := congrArg List.length h
    rw [List.length_map] at hlength
    exact ⟨12, hlength⟩
  simp only [spansOf, hcount, cutMarkers, findMarker_of_atMarker hat, throughBrace_marker h]
  rw [← hcount, List.drop_length, hnone]
  rfl

theorem splitSummary_of_line {cs : List Char} (h : '\n' ∉ cs) :
    splitSummary cs = (trim cs, []) := by
  have hlines : summaryLines [cs] = ([cs], []) := by
    simp only [summaryLines, ite_self]
  rw [splitSummary, splitOnChar_eq, List.splitOn_eq_singleton h, hlines]
  simp [joinLines]
  rfl

/-- A line with an inline marker is not the line of a tag. -/
theorem head?_ne_of_marker {line : List Char}
    (h : (trim line).map Char.toLower = "\x7b@inheritdoc\x7d".toList) :
    line.head? ≠ some '@' := by
  intro hat
  have hkept : trim line = trimEnd line := by
    rw [trim, stripWhile, ← trimStart, trimStart_of_head? hat rfl]
    rfl
  have hhead : ((trim line).head?).map Char.toLower = some '\x7b' := by
    rw [← List.head?_map, h]
    rfl
  obtain ⟨c, hc, hlower⟩ := Option.map_eq_some_iff.mp hhead
  rw [hkept] at hc
  obtain rfl := Option.some.inj (hat.symm.trans (head?_of_dropEndWhile hc))
  exact absurd hlower (by decide)

/-- An inline marker that is the whole content of a comment is its summary. -/
theorem parse_inline {raw : String} {line : List Char} (honly : OnlyLine raw line)
    (h : (trim line).map Char.toLower = "\x7b@inheritdoc\x7d".toList) :
    (parse raw).summary = [.marker (.ofList (trim line))] ∧ (parse raw).description = [] := by
  obtain ⟨before, after, hlines, hempty⟩ := honly
  have huntagged : ∀ l ∈ before ++ line :: after, l.head? ≠ some '@' := by
    intro l hl
    rcases List.mem_append.mp hl with hl | hl
    · rw [hempty l (List.mem_append_left _ hl)]
      simp
    · rcases List.mem_cons.mp hl with rfl | hl
      · exact head?_ne_of_marker h
      · rw [hempty l (List.mem_append_right _ hl)]
        simp
  have hbreak : '\n' ∉ trim line := by
    intro hmem
    have hlower : Char.toLower '\n' ∈ "\x7b@inheritdoc\x7d".toList := h ▸ List.mem_map_of_mem hmem
    exact absurd hlower (by decide)
  have htext : freeText raw = trim line := by
    rw [freeText, ← sections_fst, hlines, sections_of_untagged huntagged,
      trim_joinLines_only hempty]
  rw [parse_eq_ofSections, hlines, sections_of_untagged huntagged, htext]
  simp only [ofSections, splitSummary_of_line hbreak, trim_trim, spansOf_marker h, List.map_nil,
    List.filterMap_nil, List.append_nil, true_and]
  rfl

/-! ## The tag form -/

theorem readTag_inheritDoc {name rest : List Char}
    (hname : name.map Char.toLower = "inheritdoc".toList)
    (hrest : ∀ c, rest.head? = some c → endsTagName c = true) :
    (readTag ('@' :: (name ++ rest))).kind = .inheritDoc := by
  have hlower : lower (.ofList name) = "inheritdoc" := by
    rw [lower, String.toList_ofList, hname, String.ofList_toList]
  have hchars := not_endsTagName_of_lower hlower (by decide)
  rw [String.toList_ofList] at hchars
  have hhead : rest.head?.any (!endsTagName ·) = false := by
    cases rest with
    | nil => rfl
    | cons c rest => simp [hrest c rfl]
  have htake : (name ++ rest).takeWhile (!endsTagName ·) = name := by
    rw [TypeExpr.takeWhile_append hhead, List.takeWhile_eq_self_iff.mpr hchars]
  rw [readTag, List.drop_one, List.tail_cons]
  simp only [htake, hname]
  rfl

/-- The line of a tag that is the whole content of a comment leaves a marker in the description. -/
theorem parse_tag {raw : String} {name rest : List Char}
    (honly : OnlyLine raw ('@' :: (name ++ rest)))
    (hname : name.map Char.toLower = "inheritdoc".toList)
    (hrest : ∀ c, rest.head? = some c → endsTagName c = true) :
    ∃ written, (parse raw).summary = [] ∧ (parse raw).description = [.marker written] := by
  obtain ⟨before, after, hlines, hempty⟩ := honly
  obtain ⟨hbefore, hafter⟩ := List.forall_mem_append.mp hempty
  have huntagged : ∀ {ls : List (List Char)}, (∀ line ∈ ls, line = []) →
      sections ls = (ls, []) := by
    intro ls hls
    refine sections_of_untagged fun line hline => ?_
    rw [hls line hline]
    simp
  obtain ⟨pad, hpad, hjoin⟩ := joinLines_cons_empty hafter ('@' :: (name ++ rest))
  have hsections : sections (commentLines raw.toList) =
      (before, ['@' :: (name ++ rest) ++ pad]) := by
    rw [hlines, sections_append before rfl, huntagged hbefore]
    simp [sections, huntagged hafter, hjoin]
  have hline : trimEnd ('@' :: (name ++ rest)) = '@' :: (name ++ rest) :=
    (plainLine_of_mem_commentLines _ (by rw [hlines]; simp)).noTail
  have hmarker : tagMarker? ('@' :: (name ++ rest)) =
      some (.marker (.ofList (firstWord ('@' :: (name ++ rest))))) := by
    rw [tagMarker?, hline, readTag_inheritDoc hname hrest]
    rfl
  have htext : freeText raw = [] := by
    rw [freeText, ← sections_fst, hsections, trim_joinLines_empty hbefore]
  rw [parse_eq_ofSections, hsections, htext]
  refine ⟨.ofList (firstWord ('@' :: (name ++ rest))), rfl, ?_⟩
  simp only [ofSections, List.map_cons, List.map_nil, trimEnd_append_blanks hpad, hline,
    List.filterMap_cons, hmarker, List.filterMap_nil]
  rfl

theorem markerAlone_of_bareMarker {raw : String} (h : BareMarker raw) :
    (parse raw).MarkerAlone := by
  cases h with
  | inline honly hline => exact ⟨_, .inl (parse_inline honly hline)⟩
  | tag honly hname hrest =>
    obtain ⟨written, hparse⟩ := parse_tag honly hname hrest
    exact ⟨written, .inr hparse⟩

end Docblock

/-- White space stands at neither end of the texts. -/
structure DocText.Trimmed (d : DocText) : Prop where
  summary : Text.trim d.summary.toList = d.summary.toList
  description : Text.trim d.description.toList = d.description.toList

/-- The comment says nothing but that an ancestor's text is wanted. -/
def DocText.IsBareMarker (d : DocText) : Prop :=
  ∃ raw, Docblock.BareMarker raw ∧ d.doc = some (Docblock.parse raw)

namespace Inherit

variable {subject : Subject} {depth : Nat} {r found : ResolvedDoc} {issues : List Issue}
  {doc : Docblock}

/-! ## Texts along a chain -/

theorem trim_renderSpans (spans : List Span) (inherited : Option String) :
    Text.trim (renderSpans spans inherited).toList = (renderSpans spans inherited).toList := by
  rw [renderSpans, String.toList_ofList, Text.trim_trim]

theorem trimmed_literal (doc : Docblock) : (literal doc).Trimmed :=
  ⟨trim_renderSpans _ _, trim_renderSpans _ _⟩

theorem trimmed_filled (doc : Docblock) (h : found.Trimmed) : (filled doc found).Trimmed := by
  unfold filled
  constructor
  · dsimp only
    split
    · exact h.summary
    · exact trim_renderSpans _ _
  · dsimp only
    split
    · exact h.description
    · exact trim_renderSpans _ _

/-- **Every text that a search settles on is trimmed.** -/
theorem Settled.trimmed (h : Settled subject depth r issues) : ∀ d ∈ r.chain, d.Trimmed := by
  induction h with
  | @plain _ doc _ => exact List.forall_mem_singleton.mpr (trimmed_literal doc)
  | @unresolved _ doc _ _ => exact List.forall_mem_singleton.mpr (trimmed_literal doc)
  | @filled _ _ doc found _ _ _ _ _ ih =>
    have hfound : found.Trimmed := ih _ List.mem_cons_self
    exact List.forall_mem_cons.mpr ⟨trimmed_filled doc hfound, ih⟩

/-- A comment that another one follows was filled from there. -/
theorem Settled.filled_of_next (h : Settled subject depth r issues) :
    ∀ {before after : List DocText} {e d : DocText},
    r.chain = before ++ e :: d :: after →
      ∃ doc found, e = (Inherit.filled doc found).toDocText ∧ d = found.toDocText := by
  induction h with
  | @plain _ doc _ =>
    intro before after e d hchain
    have hlength := congrArg List.length hchain
    simp [chain_literal] at hlength
    omega
  | @unresolved _ doc _ _ =>
    intro before after e d hchain
    have hlength := congrArg List.length hchain
    simp [chain_literal] at hlength
    omega
  | @filled _ _ doc found _ _ _ _ _ ih =>
    intro before after e d hchain
    rw [chain_filled] at hchain
    cases before with
    | nil =>
      obtain ⟨rfl, hrest⟩ := List.cons.inj hchain
      exact ⟨doc, found, rfl, (List.cons.inj hrest).1.symm⟩
    | cons first before => exact ih (List.cons.inj hchain).2

theorem renderSpans_marker {text : String} (h : Text.trim text.toList = text.toList)
    (written : String) :
    renderSpans [.marker written] (some text) = text := by
  rw [renderSpans, List.foldl_cons, List.foldl_nil]
  simp [Span.appendTo, h]

/-- A marker alone is replaced by the ancestor's texts, in either place. -/
theorem filled_of_markerAlone (h : doc.MarkerAlone) (hfound : found.Trimmed) :
    (filled doc found).summary = found.summary ∧
      (filled doc found).description = found.description := by
  obtain ⟨written, ⟨hsummary, hdescription⟩ | ⟨hsummary, hdescription⟩⟩ := h
  · simp [filled, hsummary, hdescription, isMarkerOnly, renderSpans_marker hfound.summary]
  · simp [filled, hsummary, hdescription, renderSpans_marker hfound.description]

/-- Along a run of comments with nothing but a marker the texts are those of the comment behind the
run. -/
theorem Settled.text_of_run (h : Settled subject depth r issues) {d : DocText}
    {after : List DocText} :
    ∀ (before run : List DocText), r.chain = before ++ run ++ d :: after →
      (∀ e ∈ run, ∃ doc, doc.MarkerAlone ∧ e.doc = some doc) →
      ∀ e ∈ run, e.summary = d.summary ∧ e.description = d.description := by
  intro before run
  induction run generalizing before with
  | nil => simp
  | cons e run ih =>
    intro hchain hrun
    obtain ⟨⟨doc, halone, hdoc⟩, hrest⟩ := List.forall_mem_cons.mp hrun
    have hbehind := ih (before ++ [e]) (by rw [hchain]; simp) hrest
    -- the next comment is the one behind the run, or one of the run whose texts are known already
    obtain ⟨next, others, hnext, hsame⟩ : ∃ next others, run ++ d :: after = next :: others ∧
        next.summary = d.summary ∧ next.description = d.description := by
      cases run with
      | nil => exact ⟨d, after, rfl, rfl, rfl⟩
      | cons next run => exact ⟨next, run ++ d :: after, rfl, hbehind next List.mem_cons_self⟩
    have hchain' : r.chain = before ++ e :: next :: others := by
      rw [hchain, ← hnext]
      simp
    obtain ⟨doc', found, rfl, rfl⟩ := h.filled_of_next hchain'
    obtain rfl : doc' = doc := Option.some.inj hdoc
    have hfound : found.Trimmed := h.trimmed _ (by rw [hchain']; simp)
    have htexts := filled_of_markerAlone halone hfound
    exact List.forall_mem_cons.mpr ⟨⟨htexts.1.trans hsame.1, htexts.2.trans hsame.2⟩, hbehind⟩

/--
A comment with nothing but a marker has the texts of the ancestor that was found for it. So along a
run of such comments in a chain all texts are those of the first comment behind the run.
-/
theorem resolve_bare_marker {className : String} {comment : Option String} {ix : Index}
    (h : (resolve className subject comment ix).1 = (r, issues)) :
    (∀ raw ancestor above, comment = some raw → Docblock.BareMarker raw →
      r.inherited = ancestor :: above →
      r.summary = ancestor.summary ∧ r.description = ancestor.description) ∧
    ∀ before run d after, r.chain = before ++ run ++ d :: after → (∀ e ∈ run, e.IsBareMarker) →
      ∀ e ∈ run, e.summary = d.summary ∧ e.description = d.description := by
  cases comment with
  | none =>
    obtain ⟨rfl, -⟩ := Prod.mk.inj h
    refine ⟨by simp, fun before run d after hchain _ => ?_⟩
    -- without a comment the chain has one entry, so there is no run before the last one
    have hlength := congrArg List.length hchain
    obtain rfl : run = [] := by
      rw [← List.length_eq_zero_iff]
      simp only [ResolvedDoc.chain, List.length_cons, List.length_append, List.length_nil]
        at hlength
      omega
    simp
  | some raw =>
    obtain ⟨hdoc, hsettled⟩ := resolve_settled className subject raw ix
    rw [h] at hdoc hsettled
    refine ⟨fun raw' ancestor above hraw hbare hinherited => ?_,
      fun before run d after hchain hrun => ?_⟩
    · obtain rfl := Option.some.inj hraw
      have hchain : r.chain = [] ++ [r.toDocText] ++ ancestor :: above := by
        rw [ResolvedDoc.chain, hinherited]
        rfl
      exact hsettled.text_of_run [] [r.toDocText] hchain
        (List.forall_mem_singleton.mpr ⟨_, Docblock.markerAlone_of_bareMarker hbare, hdoc⟩) _
          List.mem_cons_self
    · refine hsettled.text_of_run before run hchain fun e he => ?_
      obtain ⟨raw', hbare, hdoc'⟩ := hrun e he
      exact ⟨_, Docblock.markerAlone_of_bareMarker hbare, hdoc'⟩

/-- A marker of each form on the way to the text of `C`. -/
theorem resolve_bare_marker_two :
    let ix := ({} : Index).add "a.php"
      "<?php /** Sum.\nText. */ class C {} /** @INHERITDOC */ class B extends C {}
      class A extends B {}"
    let comment := "/**\n * \x7b@inheritdoc\x7d\n */"
    ∃ r issues, (resolve "A" .wholeClass (some comment) ix).1 = (r, issues) ∧
      Docblock.BareMarker comment ∧
      r.chain.map (·.summary) = ["Sum.", "Sum.", "Sum."] ∧
        ∃ ancestor above, r.inherited = ancestor :: above ∧
        r.summary = ancestor.summary ∧ r.description = ancestor.description := by
  intro ix comment
  have honly : Docblock.OnlyLine comment "\x7b@inheritdoc\x7d".toList :=
    ⟨[[]], [[]], by decide +kernel, by simp⟩
  have hbare : Docblock.BareMarker comment := .inline honly (by decide)
  have hchain : (resolve "A" .wholeClass (some comment) ix).1.1.chain.map (·.summary) =
      ["Sum.", "Sum.", "Sum."] := by
    decide +kernel
  rcases hresolve : (resolve "A" .wholeClass (some comment) ix).1 with ⟨r, issues⟩
  rw [hresolve] at hchain
  obtain ⟨ancestor, above, hinherited⟩ : ∃ ancestor above, r.inherited = ancestor :: above :=
    List.exists_cons_of_ne_nil fun hnone => by simp [ResolvedDoc.chain, hnone] at hchain
  exact ⟨r, issues, rfl, hbare, hchain, ancestor, above, hinherited,
    (resolve_bare_marker hresolve).1 comment ancestor above rfl hbare hinherited⟩

end Inherit

end ClassDocs

import ClassDocs.Proofs.TagSections
import Mathlib.Data.List.Chain
import Mathlib.Data.List.Forall2

/-!
# No free text is lost

The free text of a comment is cut twice: behind the line that ends the summary, and around the
inline markers in each of the two parts. Put together again, the spans are the free text, and all
that is missing is white space between summary and description (`parse_keeps_text`).

That the summary ends with a whole line, and not with white space behind it, needs a fact about the
free text as a whole: no blank stands before a line feed in it, because every line of a comment is
trimmed at its end.
-/

namespace ClassDocs.Docblock

open Text

/-- The free text of a comment: the lines before the first tag, without white space around them. -/
def freeText (raw : String) : List Char :=
  trim (joinLines ((commentLines raw.toList).takeWhile (·.head? != some '@')))

/-- The text that spans were read from. -/
def writtenText (spans : List Span) : List Char := spans.flatMap (·.written.toList)

/-- The description without the markers that `@inheritDoc` tags put at its end. -/
def ownDescription (doc : Docblock) : List Span :=
  doc.description.take (doc.description.length - (doc.tags.filter (·.kind == .inheritDoc)).length)

/-- The line at place `i` can be the last one of a summary: it ends in a full stop, or a blank line
follows it. -/
def CanEnd (ls : List (List Char)) (i : Nat) : Prop :=
  (∃ line, ls[i]? = some line ∧ line.getLast? = some '.') ∨
    ∃ next, ls[i + 1]? = some next ∧ ∀ c ∈ next, isBlank c = true

/-- A span of a text that was cut at its inline markers. -/
inductive CutSpan : Span → Prop where
  | text {written : String} : written ≠ "" → ¬ markerStart <:+: written.toList.map Char.toLower →
      CutSpan (.text written)
  | marker {written : String} : markerStart <+: written.toList.map Char.toLower →
      '\x7d' ∉ written.toList.dropLast → CutSpan (.marker written)

/-! ## The lines of a comment -/

theorem not_mem_of_mem_splitOnChar {sep : Char} {cs : List Char} :
    ∀ part ∈ splitOnChar sep cs, sep ∉ part := by
  induction cs with
  | nil => simp [splitOnChar]
  | cons c cs ih =>
    rw [splitOnChar]
    split
    · rename_i hnil
      rw [splitOnChar_eq] at hnil
      exact absurd hnil (List.splitOn_ne_nil _ _)
    · rename_i part parts heq
      rw [heq, List.forall_mem_cons] at ih
      split
      · exact List.forall_mem_cons.mpr ⟨List.not_mem_nil, List.forall_mem_cons.mpr ih⟩
      · rename_i hne
        refine List.forall_mem_cons.mpr ⟨?_, ih.2⟩
        rw [List.mem_cons, not_or]
        exact ⟨Ne.symm hne, ih.1⟩

theorem isPrefix_dropReturn (line : List Char) : dropReturn line <+: line := by
  unfold dropReturn
  split
  · exact List.dropLast_prefix line
  · exact List.prefix_refl line

theorem not_mem_of_mem_lines {cs : List Char} : ∀ line ∈ lines cs, '\n' ∉ line := by
  have hparts : ∀ part ∈ splitOnChar '\n' cs, '\n' ∉ part := not_mem_of_mem_splitOnChar
  have hcomplete : ∀ line ∈ (splitOnChar '\n' cs).dropLast.map dropReturn, '\n' ∉ line := by
    intro line hline
    obtain ⟨part, hpart, rfl⟩ := List.mem_map.mp hline
    exact fun hmem =>
      hparts part (List.dropLast_subset _ hpart) ((isPrefix_dropReturn part).subset hmem)
  unfold lines
  dsimp only
  split
  · exact hcomplete
  · exact hcomplete
  · rename_i last _ hlast
    rw [List.forall_mem_append, List.forall_mem_singleton]
    exact ⟨hcomplete, hparts last (List.mem_of_getLast? hlast)⟩

theorem getD_dropPrefix?_suffix (pre cs : List Char) : (dropPrefix? pre cs).getD cs <:+ cs := by
  unfold dropPrefix?
  split
  · exact List.drop_suffix _ cs
  · exact List.suffix_refl cs

theorem isInfix_cleanLine (line : List Char) : cleanLine line <:+: line := by
  have hstar := getD_dropPrefix?_suffix ['*'] (trim line)
  have hspace := getD_dropPrefix?_suffix [' '] ((dropPrefix? ['*'] (trim line)).getD (trim line))
  exact (List.rdropWhile_prefix isBlank _).isInfix.trans
    ((hspace.trans hstar).isInfix.trans (isInfix_trim line))

theorem plainLine_of_mem_commentLines {raw : List Char} :
    ∀ line ∈ commentLines raw, PlainLine line := by
  intro line hline
  obtain ⟨written, hwritten, rfl⟩ := List.mem_map.mp hline
  exact ⟨fun hmem => not_mem_of_mem_lines written hwritten
    ((isInfix_cleanLine written).subset hmem), trimEnd_trimEnd _⟩

/-! ## No blank before a line feed -/

/-- The character `b` may stand before `d`: a blank other than a line feed does not stand before a
line feed. -/
def MayPrecede (b d : Char) : Prop := d = '\n' → isBlank b = true → b = '\n'

theorem last_not_blank {line : List Char} (h : trimEnd line = line) {c : Char}
    (hc : line.getLast? = some c) :
    isBlank c = false := by
  rw [← h] at hc
  exact not_of_getLast?_dropEndWhile hc

theorem isChain_of_noBreak {line : List Char} (h : '\n' ∉ line) : line.IsChain MayPrecede := by
  induction line with
  | nil => exact .nil
  | cons c line ih =>
    rw [List.mem_cons, not_or] at h
    refine List.isChain_cons.mpr ⟨fun d hd hfeed => ?_, ih h.2⟩
    subst hfeed
    exact absurd (List.mem_of_head? hd) h.2

theorem isChain_joinLines {ls : List (List Char)} (h : ∀ line ∈ ls, PlainLine line) :
    (joinLines ls).IsChain MayPrecede := by
  induction ls with
  | nil => exact .nil
  | cons line ls ih =>
    rw [List.forall_mem_cons] at h
    by_cases hls : ls = []
    · subst hls
      simpa [joinLines] using isChain_of_noBreak h.1.noBreak
    · rw [joinLines_cons line hls, List.isChain_append, List.isChain_cons]
      refine ⟨isChain_of_noBreak h.1.noBreak, ⟨fun _ _ _ _ => rfl, ih h.2⟩,
        fun c hc d hd _ hblank => ?_⟩
      -- the last character of the line is no blank at all
      rw [last_not_blank h.1.noTail hc] at hblank
      cases hblank

/-- Lines whose joined text has no blank before a line feed and none at its end have none at their
ends. -/
theorem noTail_of_isChain {ls : List (List Char)} (hbreak : ∀ line ∈ ls, '\n' ∉ line)
    (hchain : (joinLines ls).IsChain MayPrecede) (hend : trimEnd (joinLines ls) = joinLines ls) :
    ∀ line ∈ ls, trimEnd line = line := by
  induction ls with
  | nil => simp
  | cons line ls ih =>
    rw [List.forall_mem_cons] at hbreak
    by_cases hls : ls = []
    · subst hls
      simpa [joinLines] using hend
    · rw [joinLines_cons line hls] at hchain hend
      rw [List.isChain_append, List.isChain_cons] at hchain
      obtain ⟨-, ⟨-, hrest⟩, hfeed⟩ := hchain
      have hline : trimEnd line = line := by
        refine List.rdropWhile_eq_self_iff.mpr fun hne hblank => ?_
        have hlast : line.getLast hne ∈ line.getLast? := List.getLast?_eq_some_getLast hne
        have hfeed' := hfeed _ hlast '\n' rfl rfl hblank
        exact hbreak.1 (hfeed' ▸ List.getLast_mem hne)
      have hend' : trimEnd (joinLines ls) = joinLines ls := by
        by_cases hempty : trimEnd (joinLines ls) = []
        · -- else the whole text would end in the line feed
          obtain ⟨pad, hpad, hjoin⟩ := exists_of_trimEnd (joinLines ls)
          rw [hempty, List.nil_append] at hjoin
          have hall : ∀ c ∈ '\n' :: joinLines ls, isBlank c = true :=
            List.forall_mem_cons.mpr ⟨rfl, hjoin ▸ hpad⟩
          rw [trimEnd_append_blanks hall, hline] at hend
          simp at hend
        · have happend : line ++ '\n' :: joinLines ls = (line ++ ['\n']) ++ joinLines ls := by simp
          rw [happend, trimEnd_append hempty] at hend
          exact List.append_cancel_left hend
      exact List.forall_mem_cons.mpr ⟨hline, ih hbreak.2 hrest hend'⟩

/-! ## The summary -/

/-- Lines cut in two are joined by a line feed, unless one part is empty. -/
theorem exists_joinLines_cut (ls : List (List Char)) (n : Nat) :
    ∃ gap, (∀ c ∈ gap, isBlank c = true) ∧
      joinLines ls = joinLines (ls.take n) ++ gap ++ joinLines (ls.drop n) := by
  have hnil : joinLines [] = [] := rfl
  by_cases htake : ls.take n = []
  · have hdrop : ls.drop n = ls := by
      rw [← List.nil_append (ls.drop n), ← htake, List.take_append_drop]
    exact ⟨[], List.forall_mem_nil _, by rw [htake, hdrop, hnil]; rfl⟩
  by_cases hdrop : ls.drop n = []
  · have htake' : ls.take n = ls := List.take_of_length_le (List.drop_eq_nil_iff.mp hdrop)
    exact ⟨[], List.forall_mem_nil _, by rw [htake', hdrop, hnil]; simp⟩
  · refine ⟨['\n'], List.forall_mem_singleton.mpr rfl, ?_⟩
    conv_lhs => rw [← List.take_append_drop n ls, joinLines_append htake hdrop]
    simp

theorem isPrefix_joinLines_take (ls : List (List Char)) (n : Nat) :
    joinLines (ls.take n) <+: joinLines ls := by
  obtain ⟨gap, -, hcut⟩ := exists_joinLines_cut ls n
  exact ⟨gap ++ joinLines (ls.drop n), by rw [hcut, List.append_assoc]⟩

theorem exists_joinLines_take {ls : List (List Char)} {i : Nat} {line : List Char}
    (h : ls[i]? = some line) :
    ∃ front, joinLines (ls.take (i + 1)) = front ++ line := by
  have hsingle : joinLines [line] = line := by simp [joinLines]
  rw [List.take_add_one, h, Option.toList_some]
  by_cases htake : ls.take i = []
  · rw [htake, List.nil_append, hsingle]
    exact ⟨[], rfl⟩
  · rw [joinLines_append htake (List.cons_ne_nil _ _), hsingle]
    exact ⟨joinLines (ls.take i) ++ ['\n'], by simp⟩

theorem summaryLines_eq (ls : List (List Char)) :
    summaryLines ls =
      (ls.take (ls.findIdx endsSummary + 1), ls.drop (ls.findIdx endsSummary + 1)) := by
  induction ls with
  | nil => rfl
  | cons line ls ih =>
    rw [summaryLines, List.findIdx_cons, ih]
    cases endsSummary line <;> rfl

theorem endsSummary_iff {line : List Char} (h : trimEnd line = line) :
    endsSummary line = true ↔ line = [] ∨ line.getLast? = some '.' := by
  unfold endsSummary
  rw [h, ← List.getLast?_eq_none_iff]
  cases line.getLast? with
  | none => simp
  | some c => simp

/-- The lines of a text without white space around it, none of which has white space at its end. -/
structure TextLines (text : List Char) (ls : List (List Char)) : Prop where
  trimmed : trim text = text
  join : joinLines ls = text
  noTail : ∀ line ∈ ls, trimEnd line = line

theorem textLines_freeText (raw : String) :
    TextLines (freeText raw) (splitOnChar '\n' (freeText raw)) := by
  have hplain : ∀ line ∈ (commentLines raw.toList).takeWhile (·.head? != some '@'),
      PlainLine line :=
    fun line hline => plainLine_of_mem_commentLines line (List.takeWhile_subset _ hline)
  have hjoin : joinLines (splitOnChar '\n' (freeText raw)) = freeText raw := by
    rw [splitOnChar_eq]
    exact List.intercalate_splitOn '\n'
  have hchain : (freeText raw).IsChain MayPrecede :=
    List.IsChain.infix (isChain_joinLines hplain) (isInfix_trim _)
  have hend : trimEnd (freeText raw) = freeText raw := trimEnd_trimEnd _
  refine ⟨trim_trim _, hjoin, noTail_of_isChain not_mem_of_mem_splitOnChar ?_ ?_⟩
  · rw [hjoin]
    exact hchain
  · rw [hjoin]
    exact hend

/-- The summary of a text: its lines up to the first that is empty or ends in a full stop. -/
theorem splitSummary_eq (text : List Char) :
    let ls := splitOnChar '\n' text
    splitSummary text = (trim (joinLines (ls.take (ls.findIdx endsSummary + 1))),
      trim (joinLines (ls.drop (ls.findIdx endsSummary + 1)))) := by
  intro ls
  have hsplit : summaryLines (splitOnChar '\n' text) = _ := summaryLines_eq ls
  rw [splitSummary, hsplit]

namespace TextLines

variable {text : List Char} {ls : List (List Char)}

theorem first_ne_nil (h : TextLines text ls) (htext : text ≠ []) : ls.head? ≠ some [] := by
  intro hhead
  obtain ⟨rest, rfl⟩ := List.head?_eq_some_iff.mp hhead
  obtain ⟨c, hc, hblank⟩ := (tight_of_trim htext h.trimmed).first
  by_cases hrest : rest = []
  · subst hrest
    exact htext h.join.symm
  · have hjoin := h.join
    rw [joinLines_cons [] hrest] at hjoin
    rw [← hjoin] at hc
    obtain rfl : '\n' = c := by simpa using hc
    cases hblank

/-- A line that is followed by an empty one, or ends in a full stop, can end the summary. -/
theorem canEnd_iff (h : TextLines text ls) (i : Nat) :
    CanEnd ls i ↔ (∃ line, ls[i]? = some line ∧ line.getLast? = some '.') ∨
      ls[i + 1]? = some [] := by
  refine or_congr_right ⟨?_, fun hnext => ⟨[], hnext, List.forall_mem_nil _⟩⟩
  rintro ⟨next, hnext, hblank⟩
  have hself := h.noTail next (List.mem_of_getElem? hnext)
  rw [hnext, ← hself, trimEnd, dropEndWhile,
    List.dropWhile_eq_nil_iff.mpr fun c hc => hblank c (List.mem_reverse.mp hc)]
  rfl

/-- If no line before `k` can end the summary, the lines up to `k` go on, except that a full stop
may end line `k`. -/
theorem not_endsSummary (h : TextLines text ls) (htext : text ≠ []) {k : Nat}
    (hbefore : ∀ j < k, ¬ CanEnd ls j) {line : List Char} (hline : ls[k]? = some line)
    (hstop : line.getLast? ≠ some '.') : endsSummary line = false := by
  rw [Bool.eq_false_iff, Ne, endsSummary_iff (h.noTail line (List.mem_of_getElem? hline)), not_or]
  refine ⟨?_, hstop⟩
  rintro rfl
  cases k with
  | zero => exact h.first_ne_nil htext (by rw [List.head?_eq_getElem?, hline])
  | succ k => exact hbefore k (Nat.lt_succ_self k) ((h.canEnd_iff k).mpr (.inr hline))

theorem not_endsSummary_before (h : TextLines text ls) (htext : text ≠ []) {k : Nat}
    (hbefore : ∀ j < k, ¬ CanEnd ls j) {j : Nat} (hj : j < k) {line : List Char}
    (hline : ls[j]? = some line) :
    endsSummary line = false := by
  refine h.not_endsSummary htext (fun i hi => hbefore i (Nat.lt_trans hi hj)) hline fun hstop => ?_
  exact hbefore j hj (.inl ⟨line, hline, hstop⟩)

/-- The lines up to one that is not empty have no white space around them. -/
theorem trim_joinLines_take (h : TextLines text ls) {i : Nat} {line : List Char}
    (hline : ls[i]? = some line) (hne : line ≠ []) :
    trim (joinLines (ls.take (i + 1))) = joinLines (ls.take (i + 1)) := by
  obtain ⟨front, hfront⟩ := exists_joinLines_take hline
  obtain ⟨rest, hrest⟩ := isPrefix_joinLines_take ls (i + 1)
  have hjoin : joinLines (ls.take (i + 1)) ≠ [] := by simp [hfront, hne]
  refine Tight.trim_eq ⟨?_, ?_⟩
  · -- the text starts with them
    have htext : text ≠ [] := by
      rw [← h.join, ← hrest]
      exact List.append_ne_nil_of_left_ne_nil hjoin rest
    obtain ⟨c, hc, hblank⟩ := (tight_of_trim htext h.trimmed).first
    rw [← h.join, ← hrest, List.head?_append_of_ne_nil _ hjoin] at hc
    exact ⟨c, hc, hblank⟩
  · obtain ⟨c, hc⟩ := Option.ne_none_iff_exists'.mp (mt List.getLast?_eq_none_iff.mp hne)
    refine ⟨c, ?_, last_not_blank (h.noTail line (List.mem_of_getElem? hline)) hc⟩
    rw [hfront, List.getLast?_append_of_ne_nil _ hne, hc]

theorem joinLines_take_of_nil (h : TextLines [] ls) (n : Nat) : joinLines (ls.take n) = [] := by
  have hprefix := isPrefix_joinLines_take ls n
  rw [h.join] at hprefix
  exact List.prefix_nil.mp hprefix

/-- The summary ends with the first line that can end it. -/
theorem summary_of_canEnd (h : TextLines text ls) {i : Nat} (hend : CanEnd ls i)
    (hfirst : ∀ j < i, ¬ CanEnd ls j) :
    trim (joinLines (ls.take (ls.findIdx endsSummary + 1))) = joinLines (ls.take (i + 1)) := by
  by_cases htext : text = []
  · subst htext
    rw [h.joinLines_take_of_nil, h.joinLines_take_of_nil]
    rfl
  by_cases hstop : ∃ line, ls[i]? = some line ∧ line.getLast? = some '.'
  · -- the line itself ends the summary
    obtain ⟨line, hline, hlast⟩ := hstop
    obtain ⟨hlt, hget⟩ := List.getElem?_eq_some_iff.mp hline
    have hindex : ls.findIdx endsSummary = i := by
      refine (List.findIdx_eq hlt).mpr ⟨?_, fun j hj => ?_⟩
      · rw [hget, endsSummary_iff (h.noTail line (List.mem_of_getElem? hline))]
        exact .inr hlast
      · exact h.not_endsSummary_before htext hfirst hj (List.getElem?_eq_getElem _)
    have hne : line ≠ [] := by
      rintro rfl
      cases hlast
    rw [hindex, h.trim_joinLines_take hline hne]
  · -- the empty line behind it does, and is trimmed off
    have hnext := ((h.canEnd_iff i).mp hend).resolve_left hstop
    obtain ⟨hlt, hget⟩ := List.getElem?_eq_some_iff.mp hnext
    have hline : ls[i]? = some ls[i] := List.getElem?_eq_getElem _
    have hgoesOn : endsSummary ls[i] = false :=
      h.not_endsSummary htext hfirst hline fun hlast => hstop ⟨_, hline, hlast⟩
    have hindex : ls.findIdx endsSummary = i + 1 := by
      refine (List.findIdx_eq hlt).mpr ⟨by rw [hget]; rfl, fun j hj => ?_⟩
      rcases Nat.lt_succ_iff_lt_or_eq.mp hj with hj | rfl
      · exact h.not_endsSummary_before htext hfirst hj (List.getElem?_eq_getElem _)
      · exact hgoesOn
    have hne : ls[i] ≠ [] := by
      intro hnil
      rw [hnil] at hgoesOn
      cases hgoesOn
    rw [hindex, List.take_add_one, hnext, Option.toList_some, trim_joinLines_snoc_nil,
      h.trim_joinLines_take hline hne]

/-- Without such a line all of the text is the summary. -/
theorem summary_of_not_canEnd (h : TextLines text ls) (hnone : ∀ i, ¬ CanEnd ls i) :
    trim (joinLines (ls.take (ls.findIdx endsSummary + 1))) = text := by
  by_cases htext : text = []
  · subst htext
    rw [h.joinLines_take_of_nil]
    rfl
  have hlength : ls.length ≤ ls.findIdx endsSummary := by
    refine Nat.not_lt.mp fun hlt => ?_
    obtain ⟨line, hmem, hends⟩ := List.findIdx_lt_length.mp hlt
    obtain ⟨k, hk⟩ := List.getElem?_of_mem hmem
    rw [h.not_endsSummary_before htext (fun j _ => hnone j) (Nat.lt_succ_self k) hk] at hends
    cases hends
  rw [List.take_of_length_le (by omega), h.join, h.trimmed]

end TextLines

/-! ## Summary and description -/

/-- A trimmed text that is cut in two loses white space only when the parts are trimmed. -/
theorem exists_gap {text front gap back : List Char} (htext : trim text = text)
    (happend : text = front ++ gap ++ back) (hgap : ∀ c ∈ gap, isBlank c = true) :
    ∃ between, (∀ c ∈ between, isBlank c = true) ∧ text = trim front ++ between ++ trim back := by
  by_cases hfront : ∀ c ∈ front, isBlank c = true
  · -- then all of the text is in the second part
    refine ⟨[], List.forall_mem_nil _, ?_⟩
    have hpad : ∀ c ∈ front ++ gap, isBlank c = true := List.forall_mem_append.mpr ⟨hfront, hgap⟩
    have hback : trim (front ++ gap ++ back) = trim back := by
      rw [← trim_trimStart, trimStart, List.dropWhile_append_of_pos hpad]
      exact trim_trimStart back
    rw [TypeExpr.trim_of_blank hfront, ← htext, happend, hback]
    rfl
  by_cases hback : ∀ c ∈ back, isBlank c = true
  · refine ⟨[], List.forall_mem_nil _, ?_⟩
    rw [TypeExpr.trim_of_blank hback, ← htext, happend, List.append_assoc,
      trim_append_blanks (List.forall_mem_append.mpr ⟨hgap, hback⟩)]
    simp
  -- else the text starts in the first part and ends in the second
  have hne : text ≠ [] := by
    rintro rfl
    simp only [List.nil_eq, List.append_eq_nil_iff] at happend
    exact hback (happend.2 ▸ List.forall_mem_nil _)
  have htight := tight_of_trim hne htext
  obtain ⟨pad, hpad, hfrontPad⟩ := exists_of_trimEnd front
  have hbackPad : back = back.takeWhile isBlank ++ trimStart back :=
    List.takeWhile_append_dropWhile.symm
  have hstart : trimStart front = front := by
    obtain ⟨c, hc, hblank⟩ := htight.first
    have hfrontNe : front ≠ [] := fun hnil => hfront (hnil ▸ List.forall_mem_nil _)
    rw [happend, List.append_assoc, List.head?_append_of_ne_nil _ hfrontNe] at hc
    exact trimStart_of_head? hc hblank
  have hend : trimEnd (trimStart back) = trimStart back := by
    obtain ⟨c, hc, hblank⟩ := htight.last
    have hbackNe : trimStart back ≠ [] := mt List.dropWhile_eq_nil_iff.mp hback
    rw [happend, hbackPad, ← List.append_assoc, List.getLast?_append_of_ne_nil _ hbackNe] at hc
    exact trimEnd_of_getLast? hc hblank
  refine ⟨pad ++ gap ++ back.takeWhile isBlank, ?_, ?_⟩
  · simp only [List.forall_mem_append]
    exact ⟨⟨hpad, hgap⟩, fun c hc => List.mem_takeWhile_imp hc⟩
  · calc text = front ++ gap ++ back := happend
      _ = (trimEnd front ++ pad) ++ gap ++ (back.takeWhile isBlank ++ trimStart back) := by
        rw [← hfrontPad, ← hbackPad]
      _ = trimEnd (trimStart front) ++ (pad ++ gap ++ back.takeWhile isBlank) ++
          trimEnd (trimStart back) := by
        rw [hstart, hend]
        simp only [List.append_assoc]

theorem splitSummary_append {text : List Char} (h : trim text = text) :
    ∃ gap, (∀ c ∈ gap, isBlank c = true) ∧
      text = (splitSummary text).1 ++ gap ++ (splitSummary text).2 := by
  have hjoin : joinLines (splitOnChar '\n' text) = text := by
    rw [splitOnChar_eq]
    exact List.intercalate_splitOn '\n'
  rw [splitSummary_eq]
  generalize (splitOnChar '\n' text).findIdx endsSummary + 1 = n
  obtain ⟨gap, hgap, hcut⟩ := exists_joinLines_cut (splitOnChar '\n' text) n
  exact exists_gap h (hjoin.symm.trans hcut) hgap

/-! ## Inline markers -/

theorem atMarker_iff (cs : List Char) :
    atMarker cs = true ↔ markerStart <+: cs.map Char.toLower := by
  rw [atMarker, beq_iff_eq, List.map_take, List.prefix_iff_eq_take]

/-- An inline marker is found at its first place. -/
theorem findMarker_eq_some {cs before rest : List Char} (h : findMarker cs = some (before, rest)) :
    cs = before ++ rest ∧ atMarker rest = true ∧
      ∀ front back, before = front ++ back → back ≠ [] → atMarker (back ++ rest) = false := by
  induction cs generalizing before with
  | nil => cases h
  | cons c cs ih =>
    rw [findMarker] at h
    split at h
    · rename_i hat
      cases h
      refine ⟨rfl, hat, fun front back hnil hne => ?_⟩
      exact absurd (List.append_eq_nil_iff.mp hnil.symm).2 hne
    · rename_i hat
      obtain ⟨⟨before', rest'⟩, hfound, heq⟩ := Option.map_eq_some_iff.mp h
      cases heq
      obtain ⟨rfl, hmarker, hearlier⟩ := ih hfound
      refine ⟨rfl, hmarker, fun front back heq hne => ?_⟩
      cases front with
      | nil =>
        rw [← List.nil_append back, ← heq]
        simpa using hat
      | cons d front =>
        obtain ⟨-, rfl⟩ := List.cons.inj heq
        exact hearlier front back rfl hne

theorem findMarker_eq_none {cs : List Char} (h : findMarker cs = none) :
    ∀ front back, cs = front ++ back → back ≠ [] → atMarker back = false := by
  induction cs with
  | nil =>
    intro front back hnil hne
    exact absurd (List.append_eq_nil_iff.mp hnil.symm).2 hne
  | cons c cs ih =>
    rw [findMarker] at h
    split at h
    · cases h
    · rename_i hat
      intro front back heq hne
      cases front with
      | nil =>
        rw [← List.nil_append back, ← heq]
        simpa using hat
      | cons d front =>
        obtain ⟨-, rfl⟩ := List.cons.inj heq
        exact ih (Option.map_eq_none_iff.mp h) front back rfl hne

/-- A text in which no marker starts, with what follows it, holds none. -/
theorem not_infix_of_not_atMarker {cs : List Char} (rest : List Char)
    (h : ∀ front back, cs = front ++ back → back ≠ [] → atMarker (back ++ rest) = false) :
    ¬ markerStart <:+: cs.map Char.toLower := by
  rintro ⟨front, back, hcs⟩
  obtain ⟨before, after, rfl, hbefore, -⟩ := List.map_eq_append_iff.mp hcs.symm
  obtain ⟨ahead, marker, rfl, -, hmarker⟩ := List.map_eq_append_iff.mp hbefore
  have hne : marker ++ after ≠ [] := by
    rintro hnil
    rw [(List.append_eq_nil_iff.mp hnil).1] at hmarker
    cases hmarker
  have hnot := h ahead (marker ++ after) (List.append_assoc _ _ _) hne
  have hat : atMarker (marker ++ after ++ rest) = true := by
    rw [atMarker_iff, List.append_assoc, List.map_append, hmarker]
    exact List.prefix_append _ _
  rw [hat] at hnot
  cases hnot

theorem isPrefix_throughBrace (cs : List Char) : throughBrace cs <+: cs := by
  induction cs with
  | nil => exact List.nil_prefix
  | cons c cs ih =>
    rw [throughBrace]
    split
    · exact (List.prefix_cons_inj c).mpr List.nil_prefix
    · exact (List.prefix_cons_inj c).mpr ih

/-- The closing brace of a marker is its last character. -/
theorem not_mem_dropLast_throughBrace (cs : List Char) : '\x7d' ∉ (throughBrace cs).dropLast := by
  induction cs with
  | nil => exact List.not_mem_nil
  | cons c cs ih =>
    rw [throughBrace]
    split
    · exact List.not_mem_nil
    · rename_i hc
      cases hrest : throughBrace cs with
      | nil => exact List.not_mem_nil
      | cons d rest =>
        rw [hrest] at ih
        rw [List.dropLast_cons_cons, List.mem_cons, not_or]
        exact ⟨fun hbrace => hc (beq_iff_eq.mpr hbrace.symm), ih⟩

/-- A marker is not cut off inside its start. -/
theorem prefix_throughBrace {start cs : List Char} (hbrace : '\x7d' ∉ start)
    (h : start <+: cs.map Char.toLower) :
    start <+: (throughBrace cs).map Char.toLower := by
  induction start generalizing cs with
  | nil => exact List.nil_prefix
  | cons a start ih =>
    rw [List.mem_cons, not_or] at hbrace
    cases cs with
    | nil => exact absurd h.length_le (by simp)
    | cons c cs =>
      rw [List.map_cons, List.cons_prefix_cons] at h
      have hc : (c == '\x7d') = false := by
        rw [beq_eq_false_iff_ne]
        rintro rfl
        exact hbrace.1 h.1.symm
      rw [throughBrace, hc, if_neg Bool.false_ne_true, List.map_cons, List.cons_prefix_cons]
      exact ⟨h.1, ih hbrace.2 h.2⟩

theorem writtenText_append (spans spans' : List Span) :
    writtenText (spans ++ spans') = writtenText spans ++ writtenText spans' := List.flatMap_append

theorem writtenText_textSpan (cs : List Char) : writtenText (textSpan cs) = cs := by
  cases cs with
  | nil => rfl
  | cons c cs => simp [textSpan, writtenText, Span.written]

/-- The spans of a text are the text. -/
theorem writtenText_cutMarkers (count : Nat) (cs : List Char) :
    writtenText (cutMarkers count cs) = cs := by
  induction count generalizing cs with
  | zero => exact writtenText_textSpan cs
  | succ count ih =>
    rw [cutMarkers]
    split
    · exact writtenText_textSpan cs
    · rename_i before rest hfound
      obtain ⟨rfl, -, -⟩ := findMarker_eq_some hfound
      obtain ⟨after, hafter⟩ := isPrefix_throughBrace rest
      have hdrop := congrArg (List.drop (throughBrace rest).length) hafter
      rw [List.drop_left] at hdrop
      have hmarker :
          writtenText (.marker (.ofList (throughBrace rest)) :: cutMarkers count after) =
          throughBrace rest ++ writtenText (cutMarkers count after) := by
        simp [writtenText, Span.written]
      dsimp only
      rw [← hdrop, writtenText_append, writtenText_textSpan, hmarker, ih after, hafter]

theorem cutSpan_textSpan {cs : List Char} (h : ¬ markerStart <:+: cs.map Char.toLower) :
    ∀ span ∈ textSpan cs, CutSpan span := by
  intro span hspan
  cases cs with
  | nil => cases hspan
  | cons c cs =>
    obtain rfl : span = .text (.ofList (c :: cs)) := by simpa [textSpan] using hspan
    refine .text (fun hempty => ?_) (by rwa [String.toList_ofList])
    have hnil := congrArg String.toList hempty
    rw [String.toList_ofList] at hnil
    cases hnil

theorem cutSpan_cutMarkers {count : Nat} {cs : List Char} (h : cs.length ≤ count) :
    ∀ span ∈ cutMarkers count cs, CutSpan span := by
  induction count generalizing cs with
  | zero =>
    obtain rfl := List.length_eq_zero_iff.mp (Nat.le_zero.mp h)
    exact List.forall_mem_nil _
  | succ count ih =>
    rw [cutMarkers]
    split
    · rename_i hnone
      refine cutSpan_textSpan (not_infix_of_not_atMarker [] fun front back heq hne => ?_)
      rw [List.append_nil]
      exact findMarker_eq_none hnone front back heq hne
    · rename_i before rest hfound
      obtain ⟨rfl, hat, hearlier⟩ := findMarker_eq_some hfound
      have hstart := prefix_throughBrace (by decide) ((atMarker_iff rest).mp hat)
      have hmarker : CutSpan (.marker (.ofList (throughBrace rest))) := by
        refine .marker ?_ ?_
        · rwa [String.toList_ofList]
        · rw [String.toList_ofList]
          exact not_mem_dropLast_throughBrace rest
      have hpos : 0 < (throughBrace rest).length := by
        have hle := hstart.length_le
        rw [List.length_map] at hle
        exact Nat.lt_of_lt_of_le (by decide) hle
      have hlen : (rest.drop (throughBrace rest).length).length ≤ count := by
        rw [List.length_append] at h
        rw [List.length_drop]
        omega
      rw [List.forall_mem_append, List.forall_mem_cons]
      exact ⟨cutSpan_textSpan (not_infix_of_not_atMarker rest hearlier), hmarker, ih hlen⟩

/-- Without an ancestor's text the spans are put out as they were written. -/
theorem renderSpans_none (spans : List Span) :
    renderSpans spans none = .ofList (trim (writtenText spans)) := by
  have hfold : ∀ out : List Char,
      spans.foldl (fun out span => span.appendTo out none) out = out ++ writtenText spans := by
    induction spans with
    | nil => simp [writtenText]
    | cons span spans ih =>
      intro out
      have hspan : span.appendTo out none = out ++ span.written.toList := by cases span <;> rfl
      rw [List.foldl_cons, ih, hspan, List.append_assoc]
      rfl
  rw [renderSpans, hfold, List.nil_append]

/-! ## The whole comment -/

theorem parse_eq_ofSections (raw : String) :
    parse raw =
      ofSections (freeText raw) ((sections (commentLines raw.toList)).2.map trimEnd) := by
  rw [parse, read_eq_ofSections, sections_fst]
  rfl

/-- The description is what is left of the free text, and then the markers of the tags. -/
theorem description_eq (raw : String) :
    ∃ fromTags, (parse raw).description = spansOf (splitSummary (freeText raw)).2 ++ fromTags ∧
      List.Forall₂ (fun _ span => Span.isMarker span = true)
        ((parse raw).tags.filter (·.kind == .inheritDoc)) fromTags := by
  refine ⟨(sections (commentLines raw.toList)).2.filterMap tagMarker?, ?_, ?_⟩
  · rw [parse_eq_ofSections, ofSections, filterMap_tagMarker?]
  · rw [parse_eq_ofSections]
    exact forall₂_tagMarker? _

theorem ownDescription_eq (raw : String) :
    ownDescription (parse raw) = spansOf (splitSummary (freeText raw)).2 := by
  obtain ⟨fromTags, hdescription, hmarkers⟩ := description_eq raw
  rw [ownDescription, hmarkers.length_eq, hdescription, List.length_append, Nat.add_sub_cancel,
    List.take_left]

/-- What a comment keeps of its free text, whose lines are `ls`. -/
structure KeepsText (raw : String) (ls : List (List Char)) (doc : Docblock) : Prop where
  /-- Nothing is missing but white space between summary and description. -/
  whole : ∃ gap, (∀ c ∈ gap, isBlank c = true) ∧
    freeText raw = writtenText doc.summary ++ gap ++ writtenText (ownDescription doc)
  /-- The summary ends with the first line that can be its last. -/
  ends : ∀ i, CanEnd ls i → (∀ j < i, ¬ CanEnd ls j) →
    writtenText doc.summary = joinLines (ls.take (i + 1))
  /-- Without such a line the summary is the whole text. -/
  openEnd : (∀ i, ¬ CanEnd ls i) → writtenText doc.summary = freeText raw
  cut : ∀ span ∈ doc.summary ++ ownDescription doc, CutSpan span
  /-- Behind the description stands one marker for each tag that asks for an ancestor's text. -/
  markers : ∃ fromTags, doc.description = ownDescription doc ++ fromTags ∧
    List.Forall₂ (fun _ span => Span.isMarker span = true)
      (doc.tags.filter (·.kind == .inheritDoc)) fromTags
  rendered : renderSpans doc.summary none = .ofList (writtenText doc.summary)

/--
Summary and description hold the whole free text of a comment but for white space between them. The
summary ends with the first line that ends in a full stop or has a blank line behind it. The spans
are cut exactly at the inline markers, and without an ancestor's text the summary is put out as it
was written.
-/
theorem parse_keeps_text (raw : String) :
    KeepsText raw (splitOnChar '\n' (freeText raw)) (parse raw) := by
  have hlines : TextLines (freeText raw) (splitOnChar '\n' (freeText raw)) :=
    textLines_freeText raw
  have hdescription : ownDescription (parse raw) = spansOf (splitSummary (freeText raw)).2 :=
    ownDescription_eq raw
  have hdoc : (parse raw).summary = spansOf (splitSummary (freeText raw)).1 := by
    rw [parse_eq_ofSections, ofSections]
  have hsplit : splitSummary (freeText raw) = _ := splitSummary_eq (freeText raw)
  have hsummary : writtenText (parse raw).summary =
      trim (joinLines ((splitOnChar '\n' (freeText raw)).take
        ((splitOnChar '\n' (freeText raw)).findIdx endsSummary + 1))) := by
    rw [hdoc, spansOf, writtenText_cutMarkers, hsplit]
  refine ⟨?_, fun i hend hfirst => ?_, fun hnone => ?_, ?_, ?_, ?_⟩
  · rw [hdoc, hdescription, spansOf, spansOf, writtenText_cutMarkers, writtenText_cutMarkers]
    exact splitSummary_append hlines.trimmed
  · rw [hsummary, hlines.summary_of_canEnd hend hfirst]
  · rw [hsummary, hlines.summary_of_not_canEnd hnone]
  · rw [hdoc, hdescription, List.forall_mem_append]
    exact ⟨cutSpan_cutMarkers (Nat.le_refl _), cutSpan_cutMarkers (Nat.le_refl _)⟩
  · rw [hdescription]
    exact description_eq raw
  · rw [renderSpans_none, hsummary, trim_trim]

end ClassDocs.Docblock

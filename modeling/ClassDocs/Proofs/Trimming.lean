import ClassDocs.Proofs.Segments
import ClassDocs.Text.Blank
import Mathlib.Data.List.DropRight
import Mathlib.Data.List.TakeWhile

/-!
# Trimming and lines

Dropping characters at an end leaves a text that does not start, or end, with such a character.
Dropping at the end first leaves the start alone, so both ends are clear after stripping both.

A text that has no white space at its ends is called tight. It comes back whatever blanks are put
around it, and it is one line if it has no line feed. These two facts are all that reading a
comment back needs of its layout.
-/

namespace ClassDocs.Text

variable {p : Char → Bool} {cs : List Char} {c : Char}

theorem not_of_head?_dropWhile (h : (cs.dropWhile p).head? = some c) : p c = false := by
  rw [← List.find?_not_eq_head?_dropWhile] at h
  simpa using List.find?_some h

theorem not_of_getLast?_dropEndWhile (h : (dropEndWhile p cs).getLast? = some c) :
    p c = false := by
  rw [dropEndWhile, List.getLast?_reverse] at h
  exact not_of_head?_dropWhile h

/-- Dropping characters at the end leaves the first one, unless nothing is left. -/
theorem head?_of_dropEndWhile (h : (dropEndWhile p cs).head? = some c) : cs.head? = some c := by
  have hpre : dropEndWhile p cs <+: cs := List.rdropWhile_prefix p cs
  cases hd : dropEndWhile p cs with
  | nil => simp [hd] at h
  | cons d ds =>
    rw [hd] at h hpre
    obtain ⟨rest, rfl⟩ := hpre
    exact h

theorem dropEndWhile_append {ds : List Char} (hlast : cs.getLast? = some c) (hc : p c = false)
    (hds : ∀ d ∈ ds, p d = true) : dropEndWhile p (cs ++ ds) = cs := by
  obtain ⟨front, rfl⟩ := List.getLast?_eq_some_iff.mp hlast
  unfold dropEndWhile
  rw [List.reverse_append, List.dropWhile_append_of_pos fun d hd => hds d (List.mem_reverse.mp hd)]
  simp [hc]

theorem not_of_head?_stripWhile (h : (stripWhile p cs).head? = some c) : p c = false :=
  not_of_head?_dropWhile (head?_of_dropEndWhile h)

/-! ## Texts without white space at their ends -/

/-- There is something, and white space neither in front of it nor behind it. -/
structure Tight (cs : List Char) : Prop where
  first : ∃ c, cs.head? = some c ∧ isBlank c = false
  last : ∃ c, cs.getLast? = some c ∧ isBlank c = false

theorem trimStart_of_head? (h : cs.head? = some c) (hc : isBlank c = false) :
    trimStart cs = cs := by
  obtain ⟨rest, rfl⟩ := List.head?_eq_some_iff.mp h
  exact List.dropWhile_cons_of_neg (by simp [hc])

theorem trimEnd_of_getLast? (h : cs.getLast? = some c) (hc : isBlank c = false) :
    trimEnd cs = cs := by
  obtain ⟨front, rfl⟩ := List.getLast?_eq_some_iff.mp h
  exact List.rdropWhile_concat_neg _ _ _ (by simp [hc])

theorem tight_trim (h : trim cs ≠ []) : Tight (trim cs) where
  first := by
    obtain ⟨c, hc⟩ := Option.ne_none_iff_exists'.mp (mt List.head?_eq_none_iff.mp h)
    exact ⟨c, hc, not_of_head?_stripWhile hc⟩
  last := by
    obtain ⟨c, hc⟩ := Option.ne_none_iff_exists'.mp (mt List.getLast?_eq_none_iff.mp h)
    exact ⟨c, hc, not_of_getLast?_dropEndWhile hc⟩

theorem tight_of_trim (hne : cs ≠ []) (h : trim cs = cs) : Tight cs := by
  rw [← h] at hne ⊢
  exact tight_trim hne

theorem Tight.trimStart_append (h : Tight cs) (rest : List Char) :
    trimStart (cs ++ rest) = cs ++ rest := by
  obtain ⟨c, hc, hblank⟩ := h.first
  exact trimStart_of_head? (by simp [hc]) hblank

theorem Tight.trimStart_eq (h : Tight cs) : trimStart cs = cs := by
  have hcs := h.trimStart_append []
  rwa [List.append_nil] at hcs

theorem Tight.trimEnd_append (h : Tight cs) (front : List Char) :
    trimEnd (front ++ cs) = front ++ cs := by
  obtain ⟨c, hc, hblank⟩ := h.last
  exact trimEnd_of_getLast? (by simp [hc]) hblank

theorem trimEnd_append_blanks {pad : List Char} (hpad : ∀ c ∈ pad, isBlank c = true)
    (cs : List Char) :
    trimEnd (cs ++ pad) = trimEnd cs := by
  unfold trimEnd dropEndWhile
  rw [List.reverse_append,
    List.dropWhile_append_of_pos fun c hc => hpad c (List.mem_reverse.mp hc)]

theorem trim_append_blanks {pad : List Char} (hpad : ∀ c ∈ pad, isBlank c = true)
    (cs : List Char) :
    trim (cs ++ pad) = trim cs := by
  have hstart : ∀ cs : List Char, trim cs = trimEnd (trimStart cs) := fun _ => rfl
  rw [hstart, hstart, trimStart, trimStart, List.dropWhile_append]
  split
  · rename_i hempty
    rw [List.isEmpty_iff.mp hempty, List.dropWhile_eq_nil_iff.mpr hpad]
  · exact trimEnd_append_blanks hpad _

/-- What is dropped at the end is white space. -/
theorem exists_of_trimEnd (cs : List Char) :
    ∃ pad, (∀ c ∈ pad, isBlank c = true) ∧ cs = trimEnd cs ++ pad :=
  ⟨cs.rtakeWhile isBlank, fun _ => List.mem_rtakeWhile_imp, List.rdropWhile_append_rtakeWhile.symm⟩

theorem exists_of_trim (cs : List Char) :
    ∃ before after, cs = before ++ trim cs ++ after ∧ (∀ c ∈ before, isBlank c = true) ∧
      ∀ c ∈ after, isBlank c = true := by
  obtain ⟨after, hafter, heq⟩ := exists_of_trimEnd (trimStart cs)
  refine ⟨cs.takeWhile isBlank, after, ?_, fun _ => List.mem_takeWhile_imp, hafter⟩
  have htrim : trim cs ++ after = cs.dropWhile isBlank := heq.symm
  rw [List.append_assoc, htrim, List.takeWhile_append_dropWhile]

theorem isInfix_trim (cs : List Char) : trim cs <:+: cs :=
  (List.rdropWhile_prefix isBlank _).isInfix.trans (List.dropWhile_suffix isBlank).isInfix

theorem trimEnd_trimEnd (cs : List Char) : trimEnd (trimEnd cs) = trimEnd cs :=
  List.rdropWhile_idempotent isBlank cs

theorem trimEnd_append (h : trimEnd cs ≠ []) (front : List Char) :
    trimEnd (front ++ cs) = front ++ trimEnd cs := by
  have hne : (cs.reverse.dropWhile isBlank).isEmpty = false := by
    rw [List.isEmpty_eq_false_iff]
    exact fun hnil => h (List.reverse_eq_nil_iff.mpr hnil)
  unfold trimEnd dropEndWhile
  rw [List.reverse_append, List.dropWhile_append, hne, if_neg Bool.false_ne_true,
    List.reverse_append, List.reverse_reverse]

/-- Blanks around a tight text are all that trimming takes off. -/
theorem Tight.trim_pad (h : Tight cs) {before after : List Char}
    (hbefore : ∀ c ∈ before, isBlank c = true) (hafter : ∀ c ∈ after, isBlank c = true) :
    trim (before ++ cs ++ after) = cs := by
  have hstart : trimStart (before ++ cs ++ after) = cs ++ after := by
    rw [List.append_assoc, trimStart, List.dropWhile_append_of_pos hbefore]
    exact h.trimStart_append after
  calc trim (before ++ cs ++ after) = trimEnd (trimStart (before ++ cs ++ after)) := rfl
    _ = trimEnd cs := by rw [hstart, trimEnd_append_blanks hafter]
    _ = cs := h.trimEnd_append []

theorem Tight.trim_eq (h : Tight cs) : trim cs = cs := by
  have hnone : ∀ c ∈ ([] : List Char), isBlank c = true := by simp
  simpa using h.trim_pad hnone hnone

theorem trim_trim (cs : List Char) : trim (trim cs) = trim cs := by
  by_cases h : trim cs = []
  · rw [h]
    rfl
  · exact (tight_trim h).trim_eq

theorem Tight.append {front : List Char} (hfront : Tight front) (h : Tight cs) (mid : List Char) :
    Tight (front ++ mid ++ cs) where
  first := by
    obtain ⟨c, hc, hblank⟩ := hfront.first
    exact ⟨c, by simp [hc], hblank⟩
  last := by
    obtain ⟨c, hc, hblank⟩ := h.last
    exact ⟨c, by simp [hc], hblank⟩

theorem Tight.dropReturn_append (h : Tight cs) (front : List Char) :
    dropReturn (front ++ cs) = front ++ cs := by
  obtain ⟨c, hc, hblank⟩ := h.last
  have hlast : (front ++ cs).getLast? = some c := by simp [hc]
  unfold dropReturn
  rw [hlast]
  split
  · rename_i heq
    obtain rfl := Option.some.inj heq
    cases hblank
  · rfl

theorem trim_trimStart (cs : List Char) : trim (trimStart cs) = trim cs := by
  rw [trim, stripWhile, trimStart, List.dropWhile_idempotent]
  rfl

/-! ## Taking off what stands at an end -/

theorem dropPrefix?_append (pre cs : List Char) : dropPrefix? pre (pre ++ cs) = some cs := by
  rw [dropPrefix?, if_pos (List.isPrefixOf_iff_prefix.mpr (List.prefix_append pre cs)),
    List.drop_left]

theorem dropPrefix?_eq_some_iff {pre rest : List Char} :
    dropPrefix? pre cs = some rest ↔ cs = pre ++ rest := by
  constructor
  · intro h
    rw [dropPrefix?] at h
    split at h
    · rename_i hpre
      obtain ⟨tail, rfl⟩ := List.isPrefixOf_iff_prefix.mp hpre
      rw [List.drop_left] at h
      rw [Option.some.inj h]
    · cases h
  · rintro rfl
    exact dropPrefix?_append pre rest

theorem dropSuffix?_append (cs suf : List Char) : dropSuffix? suf (cs ++ suf) = some cs := by
  rw [dropSuffix?, List.reverse_append, dropPrefix?_append, Option.map_some, List.reverse_reverse]

theorem dropPrefix?_of_head?_ne {d : Char} (h : cs.head? ≠ some d) :
    dropPrefix? [d] cs = none := by
  cases cs with
  | nil => rfl
  | cons c cs =>
    have hne : d ≠ c := fun heq => h (by rw [heq, List.head?_cons])
    exact if_neg (by simpa [List.isPrefixOf] using hne)

/-! ## Lines -/

theorem lines_of_not_mem (h : '\n' ∉ cs) (hne : cs ≠ []) : lines cs = [cs] := by
  rw [lines, splitOnChar_eq, List.splitOn_eq_singleton h]
  cases cs with
  | nil => exact absurd rfl hne
  | cons c cs => rfl

/-- A line feed ends the first line, and the lines behind it are those of the rest. -/
theorem lines_append (h : '\n' ∉ cs) (rest : List Char) :
    lines (cs ++ '\n' :: rest) = dropReturn cs :: lines rest := by
  obtain ⟨part, parts, hparts⟩ := List.exists_cons_of_ne_nil (List.splitOn_ne_nil '\n' rest)
  unfold lines
  rw [splitOnChar_eq, splitOnChar_eq, List.splitOn_append_cons_self,
    List.splitOn_eq_singleton h, hparts]
  simp only [List.cons_append, List.nil_append, List.dropLast_cons_cons, List.map_cons,
    List.getLast?_cons_cons]
  cases (part :: parts).getLast? with
  | none => rfl
  | some last => cases last <;> rfl

end ClassDocs.Text

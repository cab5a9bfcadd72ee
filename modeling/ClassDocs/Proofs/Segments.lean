import ClassDocs.Name.Basic
import ClassDocs.Source.Token
import ClassDocs.TypeExpr.Printer

/-!
# The segments of a qualified name

A name token is made of segments with single backslashes between them, and each segment starts with
a letter and goes on with letters and digits. Such a name is called qualified. That a name is
qualified goes back to the characters of its token (`qualified_of_start`); it is kept when names
are put behind each other (`Qualified.append`) and when a part of a name is left out
(`Qualified.right`).
-/

namespace ClassDocs

theorem Text.splitOnChar_eq (sep : Char) (cs : List Char) :
    splitOnChar sep cs = cs.splitOn sep := by
  induction cs with
  | nil => rfl
  | cons c cs ih =>
    obtain ⟨part, parts, hsplit⟩ := List.exists_cons_of_ne_nil (List.splitOn_ne_nil sep cs)
    rw [splitOnChar, ih, List.splitOn_cons_eq_if_modifyHead, hsplit]
    by_cases hc : c = sep <;> simp [hc]

namespace Name

theorem segments_eq (name : String) : segments name = (name.toList.splitOn '\\').map .ofList := by
  rw [segments, Text.splitOnChar_eq]

theorem segments_ne_nil (name : String) : segments name ≠ [] := by
  simp [segments_eq]

theorem segments_append {name : String} {front back : List Char}
    (h : name.toList = front ++ '\\' :: back) :
    segments name = segments (.ofList front) ++ segments (.ofList back) := by
  simp only [segments_eq, h, List.splitOn_append_cons_self, List.map_append, String.toList_ofList]

/-- A name is put together from its segments in one way. -/
theorem segments_inj {name other : String} (h : segments name = segments other) :
    name = other := by
  have hchars : name.toList.splitOn '\\' = other.toList.splitOn '\\' := by
    rw [segments_eq, segments_eq] at h
    exact (List.map_inj_right fun _ _ => String.ofList_inj.mp).mp h
  rw [← String.toList_inj]
  calc name.toList
    _ = ['\\'].intercalate (name.toList.splitOn '\\') := (List.intercalate_splitOn '\\').symm
    _ = ['\\'].intercalate (other.toList.splitOn '\\') := by rw [hchars]
    _ = other.toList := List.intercalate_splitOn '\\'

/-- Segments joined by another mark are the name with that mark for each backslash. -/
theorem toList_joinTexts_segments {sep : String} {mark : Char} (hsep : sep.toList = [mark])
    (name : String) :
    (TypeExpr.joinTexts sep (segments name)).toList = name.toList.map fun c =>
      if c == '\\' then mark else c := by
  rw [segments]
  induction name.toList with
  | nil => rfl
  | cons c cs ih =>
    obtain ⟨part, parts, hparts⟩ := List.exists_cons_of_ne_nil (List.splitOn_ne_nil '\\' cs)
    rw [← Text.splitOnChar_eq] at hparts
    rw [Text.splitOnChar, List.map_cons, ← ih, hparts]
    by_cases hc : c = '\\'
    · subst hc
      simp [TypeExpr.joinTexts, hsep]
    · cases parts with
      | nil => simp [TypeExpr.joinTexts, hc]
      | cons part' parts => simp [TypeExpr.joinTexts, hc]

theorem joinTexts_segments (name : String) : TypeExpr.joinTexts "\\" (segments name) = name := by
  have hsep : "\\".toList = ['\\'] := rfl
  rw [← String.toList_inj, toList_joinTexts_segments hsep]
  have hself : (fun c => if c == '\\' then '\\' else c) = id := by
    funext c
    by_cases hc : c = '\\' <;> simp [hc]
  rw [hself, List.map_id]

/-! ## Below a namespace -/

theorem dropFolded?_eq_some_iff {ps cs rest : List Char} : dropFolded? ps cs = some rest ↔
    ∃ front, cs = front ++ rest ∧ front.map Char.toLower = ps.map Char.toLower := by
  fun_induction dropFolded? ps cs with
  | case1 cs => simp [eq_comm]
  | case2 p ps => simp
  | case3 p ps c cs hc ih =>
    rw [beq_iff_eq] at hc
    rw [ih]
    constructor
    · rintro ⟨front, rfl, hfront⟩
      exact ⟨c :: front, rfl, by simp [hfront, hc]⟩
    · rintro ⟨front, hcs, hfront⟩
      cases front with
      | nil => simp at hfront
      | cons d front =>
        rw [List.cons_append, List.cons.injEq] at hcs
        exact ⟨front, hcs.2, (List.cons.inj hfront).2⟩
  | case4 p ps c cs hc =>
    simp only [reduceCtorEq, false_iff]
    rintro ⟨front, hcs, hfront⟩
    cases front with
    | nil => simp at hfront
    | cons d front =>
      rw [List.cons_append, List.cons.injEq] at hcs
      refine hc (beq_iff_eq.mpr ?_)
      rw [hcs.1]
      exact (List.cons.inj hfront).1.symm

/-- A name is below a namespace if the namespace, in any letter case, and a backslash stand in
front of the rest. -/
theorem below?_eq_some_iff {space name rest : String} : below? space name = some rest ↔
    ∃ front, name.toList = front ++ '\\' :: rest.toList ∧
      front.map Char.toLower = space.toList.map Char.toLower := by
  unfold below?
  constructor
  · intro h
    split at h
    · rename_i chars heq
      obtain rfl := Option.some.inj h
      simpa using dropFolded?_eq_some_iff.mp heq
    · cases h
  · intro h
    rw [dropFolded?_eq_some_iff.mpr h]
    simp

theorem toLower_eq_backslash {c : Char} (h : c.toLower = '\\') : c = '\\' := by
  unfold Char.toLower at h
  split at h
  · rename_i hupper
    have hlow : 65 ≤ c.toNat := hupper.1
    have hhigh : c.toNat ≤ 90 := hupper.2
    have hsum : c.val + ('a'.val - 'A'.val) = '\\'.val := congrArg Char.val h
    have hval : c.val = '\\'.val - ('a'.val - 'A'.val) := by
      rw [← hsum, UInt32.add_sub_cancel]
    have hnat : c.toNat = 60 := congrArg UInt32.toNat hval
    omega
  · exact h

/-- Letter case makes no difference to what is below a namespace, but for the case of the rest. -/
theorem below?_congr {space name other rest : String} (h : Text.lower name = Text.lower other)
    (hrest : below? space name = some rest) :
    ∃ rest', below? space other = some rest' ∧ Text.lower rest' = Text.lower rest := by
  obtain ⟨front, hname, hfront⟩ := below?_eq_some_iff.mp hrest
  have hchars : other.toList.map Char.toLower =
      front.map Char.toLower ++ ('\\' :: rest.toList).map Char.toLower := by
    rw [← List.map_append, ← hname]
    exact (String.ofList_inj.mp h).symm
  obtain ⟨front', back, hother, hfront', hback⟩ := List.map_eq_append_iff.mp hchars
  obtain ⟨c, rest', rfl, hc, hrest'⟩ := List.map_eq_cons_iff.mp hback
  obtain rfl := toLower_eq_backslash hc
  refine ⟨.ofList rest',
    below?_eq_some_iff.mpr ⟨front', by simpa using hother, hfront'.trans hfront⟩, ?_⟩
  rw [Text.lower, Text.lower, String.toList_ofList, hrest']

theorem inSpace_congr {name other : String} (h : Text.lower name = Text.lower other)
    (space : String) :
    inSpace name space = inSpace other space := by
  have hsome : ∀ {a b : String}, Text.lower a = Text.lower b →
      (below? (bare space) a).isSome = true → (below? (bare space) b).isSome = true := by
    intro a b hab ha
    obtain ⟨rest, hrest⟩ := Option.isSome_iff_exists.mp ha
    obtain ⟨rest', hrest', -⟩ := below?_congr hab hrest
    rw [hrest']
    rfl
  have hiff : (below? (bare space) name).isSome = (below? (bare space) other).isSome :=
    Bool.eq_iff_iff.mpr ⟨hsome h, hsome h.symm⟩
  rw [inSpace, inSpace, hiff]

end Name

namespace Source

/-- A letter, then letters and digits. -/
def SegmentChars (cs : List Char) : Prop :=
  ∃ c rest, cs = c :: rest ∧ isNameStart c = true ∧ ∀ d ∈ rest, isNameChar d = true

/-- A segment of a name. -/
def Segment (s : String) : Prop := SegmentChars s.toList

/-- What stands between the backslashes of the name are segments. -/
def Qualified (s : String) : Prop := ∀ part ∈ Name.segments s, Segment part

theorem not_nameChar_backslash {c : Char} (h : isNameChar c = true) : c ≠ '\\' := by
  rintro rfl
  exact absurd h (by decide)

theorem Segment.nameChar {s : String} (h : Segment s) : ∀ c ∈ s.toList, isNameChar c = true := by
  obtain ⟨c, rest, hs, hc, hrest⟩ := h
  rw [hs]
  exact List.forall_mem_cons.mpr ⟨by simp [isNameChar, hc], hrest⟩

theorem Segment.not_mem_backslash {s : String} (h : Segment s) : '\\' ∉ s.toList :=
  fun hmem => not_nameChar_backslash (h.nameChar _ hmem) rfl

theorem qualified_iff {s : String} :
    Qualified s ↔ ∀ part ∈ s.toList.splitOn '\\', SegmentChars part := by
  simp [Qualified, Name.segments_eq, Segment]

theorem Segment.qualified {s : String} (h : Segment s) : Qualified s := by
  rw [qualified_iff, List.splitOn_eq_singleton h.not_mem_backslash]
  exact List.forall_mem_singleton.mpr h

/-- Behind the first segment of a name all others are whole. -/
theorem splitOn_nameTail (cs : List Char) :
    ∃ first more, (nameTail cs).splitOn '\\' = first :: more ∧ (∀ d ∈ first, isNameChar d = true) ∧
      ∀ part ∈ more, SegmentChars part := by
  fun_induction nameTail cs with
  | case1 => exact ⟨[], [], rfl, by simp, by simp⟩
  | case2 c cs hc ih =>
    obtain ⟨first, more, hsplit, hfirst, hmore⟩ := ih
    refine ⟨[], (c :: first) :: more, ?_, by simp, ?_⟩
    · simp [List.splitOn_cons_eq_if_modifyHead, hsplit, not_nameStart_backslash hc]
    · exact List.forall_mem_cons.mpr ⟨⟨c, first, rfl, hc, hfirst⟩, hmore⟩
  | case3 => exact ⟨[], [], rfl, by simp, by simp⟩
  | case4 c cs _ hc ih =>
    obtain ⟨first, more, hsplit, hfirst, hmore⟩ := ih
    refine ⟨c :: first, more, ?_, List.forall_mem_cons.mpr ⟨hc, hfirst⟩, hmore⟩
    simp [List.splitOn_cons_eq_if_modifyHead, hsplit, not_nameChar_backslash hc]
  | case5 => exact ⟨[], [], rfl, by simp, by simp⟩

/-- The text of a name token that starts with a letter is a qualified name. -/
theorem qualified_of_start {s : String} {c : Char} {cs : List Char} (hc : isNameStart c = true)
    (hs : s.toList = c :: nameTail cs) : Qualified s := by
  obtain ⟨first, more, hsplit, hfirst, hmore⟩ := splitOn_nameTail cs
  rw [qualified_iff, hs, List.splitOn_cons_eq_if_modifyHead, hsplit]
  simp only [beq_iff_eq, not_nameStart_backslash hc, if_false, List.modifyHead_cons]
  exact List.forall_mem_cons.mpr ⟨⟨c, first, rfl, hc, hfirst⟩, hmore⟩

theorem Qualified.append {s t : String} (hs : Qualified s) (ht : Qualified t) :
    Qualified (s ++ "\\" ++ t) := by
  have hchars : (s ++ "\\" ++ t).toList = s.toList ++ '\\' :: t.toList := by simp
  have hparts : Name.segments (s ++ "\\" ++ t) = Name.segments s ++ Name.segments t := by
    simpa using Name.segments_append hchars
  intro part hpart
  rw [hparts] at hpart
  exact (List.mem_append.mp hpart).elim (hs part) (ht part)

/-- What follows a backslash of a qualified name is a qualified name. -/
theorem Qualified.right {s : String} (h : Qualified s) {front back : List Char}
    (hs : s.toList = front ++ '\\' :: back) : Qualified (.ofList back) := by
  intro part hpart
  refine h part ?_
  rw [Name.segments_append hs]
  exact List.mem_append_right _ hpart

/-- A qualified name does not start with a backslash. -/
theorem Qualified.head {s : String} (h : Qualified s) :
    ∃ c rest, s.toList = c :: rest ∧ c ≠ '\\' := by
  rw [qualified_iff] at h
  cases hs : s.toList with
  | nil =>
    obtain ⟨c, rest, hempty, -⟩ := h [] (by simp [hs])
    cases hempty
  | cons c rest =>
    refine ⟨c, rest, rfl, ?_⟩
    rintro rfl
    obtain ⟨c, rest, hempty, -⟩ := h [] (by simp [hs, List.splitOn_cons_eq_if_modifyHead])
    cases hempty

/-- A qualified name does not end in a backslash. -/
theorem Qualified.last {s : String} (h : Qualified s) (front : List Char) :
    s.toList ≠ front ++ ['\\'] := by
  intro hs
  obtain ⟨c, rest, hempty, -⟩ := h.right hs "" (by simp [Name.segments_eq])
  simp at hempty

theorem Qualified.bare {s : String} (h : Qualified s) : Name.bare s = s := by
  obtain ⟨c, rest, hs, hc⟩ := h.head
  have hfront : s.toList.dropWhile (· == '\\') = s.toList := by
    rw [hs, List.dropWhile_cons_of_neg (by simpa using hc)]
  have hback : s.toList.reverse.dropWhile (· == '\\') = s.toList.reverse := by
    cases hrev : s.toList.reverse with
    | nil => rfl
    | cons d ds =>
      have hd : d ≠ '\\' := by
        rintro rfl
        refine h.last ds.reverse ?_
        simpa using congrArg List.reverse hrev
      rw [List.dropWhile_cons_of_neg (by simpa using hd)]
  rw [Name.bare, Text.stripText, Text.stripWhile, Text.dropEndWhile, hfront, hback,
    List.reverse_reverse, String.ofList_toList]

/-- A qualified name without backslashes is one segment. -/
theorem Qualified.segment {s : String} (h : Qualified s) (hs : '\\' ∉ s.toList) : Segment s := by
  rw [qualified_iff, List.splitOn_eq_singleton hs] at h
  exact h _ List.mem_cons_self

end Source
end ClassDocs

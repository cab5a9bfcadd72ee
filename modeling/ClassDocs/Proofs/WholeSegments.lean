import ClassDocs.Proofs.PagePaths
import ClassDocs.Proofs.TokenSpans
import ClassDocs.Proofs.TypeTokens

/-!
# Namespaces hold names by whole segments

Whether a name lies in a namespace is found out on the text: the namespace has to stand in front of
the name, in any letter case, and a backslash behind it. Since the backslash is no part of a
segment and has no other letter case, this says that the segments of the namespace come first in
the name and others follow (`below?_isSome_iff`).

The text can be compared by cutting as many bytes off the name as the namespace has (`belowCut?`).
Letter case does not change how many bytes a character takes, so a cut is made only where
a namespace of the same letters ends, and never inside a character (`belowCut?_eq`).
-/

namespace ClassDocs

open TypeExpr (joinTexts)

namespace Text

theorem utf8Size_toLower (c : Char) : c.toLower.utf8Size = c.utf8Size := by
  rcases TypeExpr.toLower_eq_or c with h | h
  · rw [h]
  · have hall : TypeExpr.capitals.all (fun c => c.toLower.utf8Size == c.utf8Size) =
        true := by decide
    exact beq_iff_eq.mp (List.all_eq_true.mp hall c h)

theorem bytes_map_toLower (cs : List Char) : bytes (cs.map Char.toLower) = bytes cs := by
  induction cs with
  | nil => rfl
  | cons c cs ih => rw [List.map_cons, bytes_cons, bytes_cons, utf8Size_toLower, ih]

/-- Names that differ in letter case only are equally long. -/
theorem byteLength_eq_of_lower {a b : String} (h : lower a = lower b) :
    byteLength a = byteLength b := by
  have hchars : a.toList.map Char.toLower = b.toList.map Char.toLower := String.ofList_inj.mp h
  rw [byteLength, byteLength, ← bytes_map_toLower, hchars, bytes_map_toLower]

theorem lower_joinTexts (sep : String) (parts : List String) :
    lower (joinTexts sep parts) = joinTexts (lower sep) (parts.map lower) := by
  have hlower : ∀ a b, lower (a ++ b) = lower a ++ lower b := fun a b => by simp [lower]
  fun_induction joinTexts sep parts with
  | case1 => rfl
  | case2 t => rfl
  | case3 t u rest ih => rw [hlower, hlower, ih]; rfl

theorem splitOnChar_map_toLower (cs : List Char) :
    splitOnChar '\\' (cs.map Char.toLower) =
      (splitOnChar '\\' cs).map (List.map Char.toLower) := by
  induction cs with
  | nil => rfl
  | cons c cs ih =>
    have hc : c.toLower = '\\' ↔ c = '\\' := ⟨Name.toLower_eq_backslash, by rintro rfl; rfl⟩
    rw [List.map_cons, splitOnChar, splitOnChar, ih]
    cases splitOnChar '\\' cs with
    | nil => rfl
    | cons part parts => by_cases h : c = '\\' <;> simp [hc, h]

/-! ## Cuts -/

/-- The part of a text before a byte offset, if the offset is between two characters or at
an end. -/
def front? (n : Nat) (text : String) : Option String :=
  let front := takeBytes n text.toList
  if bytes front = n then some (.ofList front) else none

/-- The part of a text from a byte offset on, if the offset is between two characters or at
an end. -/
def back? (n : Nat) (text : String) : Option String :=
  if bytes (takeBytes n text.toList) = n then some (.ofList (dropBytes n text.toList)) else none

theorem front?_append (front back : String) :
    front? (byteLength front) (front ++ back) = some front := by
  have htake : takeBytes (byteLength front) (front ++ back).toList = front.toList := by
    rw [String.toList_append, byteLength, takeBytes_bytes]
  simp only [front?, htake, String.ofList_toList]
  exact if_pos rfl

/-- Where the front can be cut off, so can the rest. -/
theorem exists_of_front? {n : Nat} {text front : String} (h : front? n text = some front) :
    ∃ back, text = front ++ back ∧ back? n text = some back := by
  simp only [front?, Option.ite_none_right_eq_some, Option.some.injEq] at h
  obtain ⟨hcut, rfl⟩ := h
  refine ⟨.ofList (dropBytes n text.toList), ?_, if_pos hcut⟩
  rw [← String.ofList_append, takeBytes_append_dropBytes, String.ofList_toList]

end Text

namespace Name

open Text

/-! ## Segments in front -/

theorem segments_lower (name : String) : segments (lower name) = (segments name).map lower := by
  rw [segments, lower, String.toList_ofList, splitOnChar_map_toLower, segments,
    List.map_map, List.map_map]
  refine List.map_congr_left fun part _ => ?_
  simp [lower]

/-- The segments start with `parts`, in any letter case, and go on. -/
def StartWith (parts segments : List String) : Prop :=
  ∃ front back, segments = front ++ back ∧ back ≠ [] ∧ front.map lower = parts.map lower

/-- What is below a namespace has the segments behind those of the namespace. -/
theorem segments_of_below? {space name rest : String} (h : below? space name = some rest) :
    ∃ front, segments name = front ++ segments rest ∧
      front.map lower = (segments space).map lower := by
  obtain ⟨front, hname, hfront⟩ := below?_eq_some_iff.mp h
  refine ⟨segments (.ofList front), by simpa using segments_append hname, ?_⟩
  have hlower : lower (.ofList front) = lower space := by
    rw [lower, lower, String.toList_ofList, hfront]
  rw [← segments_lower, ← segments_lower, hlower]

theorem below?_isSome_iff (space name : String) :
    (below? space name).isSome = true ↔ StartWith (segments space) (segments name) := by
  rw [Option.isSome_iff_exists]
  constructor
  · rintro ⟨rest, h⟩
    obtain ⟨front, hname, hfront⟩ := segments_of_below? h
    exact ⟨front, segments rest, hname, segments_ne_nil rest, hfront⟩
  · rintro ⟨front, back, hname, hback, hfront⟩
    have hne : front ≠ [] := by
      rintro rfl
      exact segments_ne_nil space (List.map_eq_nil_iff.mp hfront.symm)
    -- the name is put together from its segments, and so is the namespace
    have hjoin : name = joinTexts "\\" front ++ "\\" ++ joinTexts "\\" back := by
      calc name = joinTexts "\\" (front ++ back) := by rw [← hname, joinTexts_segments]
        _ = _ := by simp [TypeExpr.joinTexts_eq, String.intercalate_append_of_ne_nil hne hback]
    have hlower : lower (joinTexts "\\" front) = lower space := by
      calc lower (joinTexts "\\" front)
        _ = joinTexts (lower "\\") (front.map lower) := lower_joinTexts _ _
        _ = lower (joinTexts "\\" (segments space)) := by rw [hfront, lower_joinTexts]
        _ = lower space := by rw [joinTexts_segments]
    refine ⟨joinTexts "\\" back, below?_eq_some_iff.mpr ⟨(joinTexts "\\" front).toList, ?_, ?_⟩⟩
    · rw [hjoin]
      simp
    · exact String.ofList_inj.mp hlower

theorem inSpace_iff (name space : String) :
    inSpace name space = true ↔ bare space = "" ∨
      StartWith (segments (bare space)) (segments name) := by
  simp only [inSpace, Bool.or_eq_true, below?_isSome_iff, String.isEmpty_iff]

/-! ## By cutting -/

/-- What follows a leading backslash. -/
def afterBackslash? (text : String) : Option String :=
  if text.toList.head? == some '\\' then some (.ofList text.toList.tail) else none

/--
The part of a name below a namespace, by cutting the name. The front as long as the namespace is
compared first, if a character ends there. Then the rest is cut off, which is an error inside a
character: `none`.
-/
def belowCut? (space name : String) : Option (Option String) :=
  if (front? (byteLength space) name).any (sameName · space) then
    (back? (byteLength space) name).map afterBackslash?
  else some none

/-- Whether a class lives in a namespace, by cutting its name in the same way. -/
def inSpaceCut? (name space : String) : Option Bool :=
  let length := byteLength (bare space)
  if (bare space).isEmpty then some true
  else if (front? length name).any (sameName · (bare space)) then
    (back? length name).map fun rest => rest.toList.head? == some '\\'
  else some false

/-- Behind the letters of a namespace a backslash decides. -/
theorem below?_append {space front : String} (h : lower front = lower space) (back : String) :
    below? space (front ++ back) = afterBackslash? back := by
  have hdrop : dropFolded? space.toList (front ++ back).toList = some back.toList :=
    dropFolded?_eq_some_iff.mpr ⟨front.toList, String.toList_append, String.ofList_inj.mp h⟩
  rw [below?, hdrop, afterBackslash?]
  split
  · rename_i rest hrest
    simp [Option.some.inj hrest]
  · rename_i hne
    rw [if_neg]
    intro hhead
    obtain ⟨rest, hrest⟩ := List.head?_eq_some_iff.mp (beq_iff_eq.mp hhead)
    exact hne rest (congrArg some hrest)

theorem belowCut?_eq (space name : String) : belowCut? space name = some (below? space name) := by
  rw [belowCut?]
  split
  · rename_i hfront
    obtain ⟨front, hsome, hsame⟩ := (Option.any_eq_true _ _).mp hfront
    obtain ⟨back, rfl, hback⟩ := exists_of_front? hsome
    rw [hback, Option.map_some, below?_append ((sameName_iff _ _).mp hsame)]
  · rename_i hfront
    -- a name below the namespace starts with a front of its length
    cases hbelow : below? space name with
    | none => rfl
    | some rest =>
      obtain ⟨front, hname, hlower⟩ := below?_eq_some_iff.mp hbelow
      have hsame : lower (.ofList front) = lower space := by
        rw [lower, lower, String.toList_ofList, hlower]
      have hsplit : name = .ofList front ++ .ofList ('\\' :: rest.toList) := by
        rw [← String.ofList_append, ← hname, String.ofList_toList]
      refine absurd ?_ hfront
      rw [hsplit, ← byteLength_eq_of_lower hsame, front?_append, Option.any_some, sameName_iff]
      exact hsame

/-- The two cuts are the same. -/
theorem inSpaceCut?_eq_map (name space : String) :
    inSpaceCut? name space =
      if (bare space).isEmpty then some true else
        (belowCut? (bare space) name).map (·.isSome) := by
  simp only [inSpaceCut?, belowCut?]
  split
  · rfl
  split
  · rw [Option.map_map]
    congr 1
    funext rest
    rw [Function.comp_apply, afterBackslash?]
    cases rest.toList.head? == some '\\' <;> rfl
  · rfl

theorem inSpaceCut?_eq (name space : String) :
    inSpaceCut? name space = some (inSpace name space) := by
  rw [inSpaceCut?_eq_map, belowCut?_eq, inSpace]
  cases (bare space).isEmpty <;> rfl

end Name

/-! ## Pages -/

namespace Report

/-- The file that segments lead to. -/
def fileOf (segments : List String) : String :=
  Path.withExtension (segments.foldl Path.join "") "json"

/-- The file of a class, by cutting its name: `none` is a cut inside a character. -/
def viewPathCut? (name space : String) : Option String :=
  if (Name.bare space).isEmpty then some (fileOf (Name.segments name))
  else (Name.belowCut? (Name.bare space) name).map fun below? =>
    fileOf (Name.segments (below?.getD name))

theorem viewPathCut?_eq (name space : String) :
    viewPathCut? name space = some (viewPath name space) := by
  have hpage : viewPath name space = fileOf (Name.segments (pageName space name)) := rfl
  rw [viewPathCut?, Name.belowCut?_eq, hpage, pageName]
  cases (Name.bare space).isEmpty <;> rfl

theorem viewPath_eq_fileOf (name : String) {space : String} (hspace : Name.bare space ≠ "") :
    viewPath name space = fileOf (if Name.inSpace name space = true
      then (Name.segments name).drop (Name.segments (Name.bare space)).length else
        Name.segments name) := by
  have hempty : (Name.bare space).isEmpty = false := by
    rw [Bool.eq_false_iff]
    exact fun h => hspace (String.isEmpty_iff.mp h)
  have hpage : viewPath name space = fileOf (Name.segments (pageName space name)) := rfl
  rw [hpage, pageName, Name.inSpace, hempty, Bool.false_or]
  cases hbelow : Name.below? (Name.bare space) name with
  | none => rfl
  | some rest =>
    obtain ⟨front, hname, hfront⟩ := Name.segments_of_below? hbelow
    have hlength : (Name.segments (Name.bare space)).length = front.length := by
      rw [← List.length_map (f := Text.lower), ← hfront, List.length_map]
    rw [hname, hlength, List.drop_left]
    rfl

end Report

namespace Name

/--
**A namespace holds the names that start with all its segments and go on.** The names are compared
without a cut inside a character, also for the page of a class, and that page is placed by the
segments that are left: those behind the namespace if it holds the class, and all of them
otherwise.
-/
theorem inSpace_by_segments (name space : String) :
    inSpaceCut? name space = some (inSpace name space) ∧
      (inSpace name space = true ↔ bare space = "" ∨
        StartWith (segments (bare space)) (segments name)) ∧
      Report.viewPathCut? name space = some (Report.viewPath name space) ∧
      (bare space ≠ "" → Report.viewPath name space = Report.fileOf (if inSpace name space = true
        then (segments name).drop (segments (bare space)).length else segments name)) :=
  ⟨inSpaceCut?_eq name space, inSpace_iff name space, Report.viewPathCut?_eq name space,
    Report.viewPath_eq_fileOf name⟩

/-- `Äpp\sub` holds `Äpp\SUB\Büch`, and not `äpp\sub\Büch`: only letters of ASCII have another
case. -/
theorem inSpace_by_segments_umlaut : bare "\\\\Äpp\\sub\\" ≠ "" ∧
    Report.viewPath "Äpp\\SUB\\Büch" "\\\\Äpp\\sub\\" = Report.fileOf ["Büch"] ∧
    Report.viewPath "äpp\\sub\\Büch" "\\\\Äpp\\sub\\" = Report.fileOf ["äpp", "sub", "Büch"] := by
  have hspace : bare "\\\\Äpp\\sub\\" ≠ "" := by decide +kernel
  have hholds : inSpace "Äpp\\SUB\\Büch" "\\\\Äpp\\sub\\" = true := by decide +kernel
  have hnot : ¬ inSpace "äpp\\sub\\Büch" "\\\\Äpp\\sub\\" = true := by decide +kernel
  refine ⟨hspace, ?_, ?_⟩
  · rw [(inSpace_by_segments _ _).2.2.2 hspace, if_pos hholds]
    exact congrArg Report.fileOf (by decide +kernel)
  · rw [(inSpace_by_segments _ _).2.2.2 hspace, if_neg hnot]
    exact congrArg Report.fileOf (by decide +kernel)

end Name
end ClassDocs

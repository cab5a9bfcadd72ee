import ClassDocs.Proofs.Layers
import ClassDocs.Proofs.Segments

/-!
# The file that a class is found in

Of the mappings that lead from a class name to a file, the one with the longest prefix counts, and
of several with that prefix the one that the manifest has first. The lookup does not compare
prefixes: it takes the first file there is, and the order of the mappings does the rest.
`locateClass_decides` says what the two come to together.

The mappings are sorted by the length of their prefixes and by nothing else. Those of one length
stay in the order of the manifest (`filter_mergeSort`), so the first of them in the list is the
first of them that was written.
-/

namespace ClassDocs

/-- A stable sort keeps the order of those that it does not tell apart. -/
theorem filter_mergeSort {α : Type} {le : α → α → Bool}
    (htrans : ∀ a b c, le a b = true → le b c = true → le a c = true)
    (htotal : ∀ a b, (le a b || le b a) = true) {p : α → Bool}
    (hp : ∀ a b, p a = true → p b = true → le a b = true) (l : List α) :
    (l.mergeSort le).filter p = l.filter p := by
  have hsorted : (l.filter p).Pairwise fun a b => le a b = true := by
    refine List.pairwise_of_forall_mem_list fun a ha b hb => ?_
    exact hp a b (List.mem_filter.mp ha).2 (List.mem_filter.mp hb).2
  have hsub : ((l.filter p).filter p).Sublist ((l.mergeSort le).filter p) :=
    (List.sublist_mergeSort htrans htotal hsorted List.filter_sublist).filter p
  have hlength : (l.filter p).length = ((l.mergeSort le).filter p).length :=
    ((List.mergeSort_perm l le).filter p).length_eq.symm
  simp only [List.filter_filter, Bool.and_self] at hsub
  exact (hsub.eq_of_length hlength).symm

namespace Mapping

open Text TypeExpr

variable {disk : Disk} {root name path : String} {m : Mapping}

/-! ## Normal form -/

/-- A prefix that is empty, or has no backslash in front and one at its end, and a directory that
is empty or has a slash at its end. -/
structure IsNormal (m : Mapping) : Prop where
  spacePrefix : m.spacePrefix = "" ∨
    m.spacePrefix.toList.head? ≠ some '\\' ∧ m.spacePrefix.toList.getLast? = some '\\'
  base : m.base = "" ∨ m.base.toList.getLast? = some '/'

/-- A text to whose end a mark is added if it is not there. -/
theorem getLast?_marked (cs : List Char) (mark : Char) (text : String)
    (h : text = .ofList (if cs.isEmpty || cs.getLast? == some mark then cs else cs ++ [mark])) :
    text = "" ∨ text.toList.getLast? = some mark := by
  subst h
  rw [String.toList_ofList]
  split
  · rename_i h
    rw [Bool.or_eq_true, List.isEmpty_iff, beq_iff_eq] at h
    rcases h with rfl | h
    · exact .inl rfl
    · exact .inr h
  · exact .inr List.getLast?_concat

theorem isNormal_of_mem (h : m ∈ ofProject disk root) : m.IsNormal := by
  obtain ⟨written, base, isDev, rfl⟩ := exists_of_mem_ofProject h
  exact ⟨(getLast?_marked _ '\\' _ rfl).imp_right fun hlast => ⟨head?_normalPrefix written, hlast⟩,
    getLast?_marked _ '/' _ rfl⟩

/-! ## Candidates -/

/-- The mapping leads from a class name to a file that is there. The name starts with the prefix,
and the segments after it are the way to the file below the directory. -/
structure LeadsTo (m : Mapping) (disk : Disk) (root name path : String) : Prop where
  candidate : ∃ rest, name = m.spacePrefix ++ rest ∧
    path = Path.join (Path.join root m.base) (joinTexts "/" (Name.segments rest) ++ ".php")
  isFile : disk.isFile path = true

theorem candidate?_eq_some_iff :
    m.candidate? root name = some path ↔ ∃ rest, name = m.spacePrefix ++ rest ∧
    path = Path.join (Path.join root m.base) (joinTexts "/" (Name.segments rest) ++ ".php") := by
  have hsep : "/".toList = ['/'] := rfl
  have hjoin : ∀ rest : String, joinTexts "/" (Name.segments rest) =
      .ofList (rest.toList.map fun c => if c == '\\' then '/' else c) := fun rest => by
    rw [← Name.toList_joinTexts_segments hsep, String.ofList_toList]
  rw [candidate?, Option.map_eq_some_iff]
  constructor
  · rintro ⟨rest, hrest, rfl⟩
    refine ⟨.ofList rest, ?_, by rw [hjoin, String.toList_ofList]⟩
    rw [← String.toList_inj, dropPrefix?_eq_some_iff.mp hrest, String.toList_append,
      String.toList_ofList]
  · rintro ⟨rest, rfl, rfl⟩
    exact ⟨rest.toList, by rw [String.toList_append, dropPrefix?_append], by rw [hjoin]⟩

/-- Whether the mapping leads to some file. -/
def serves (disk : Disk) (root name : String) (m : Mapping) : Bool :=
  (m.candidate? root name).any disk.isFile

theorem serves_iff : m.serves disk root name = true ↔ ∃ path, m.LeadsTo disk root name path := by
  rw [serves, Option.any_eq_true]
  constructor
  · rintro ⟨path, hpath, hfile⟩
    exact ⟨path, candidate?_eq_some_iff.mp hpath, hfile⟩
  · rintro ⟨path, h⟩
    exact ⟨path, candidate?_eq_some_iff.mpr h.candidate, h.isFile⟩

theorem LeadsTo.candidate?_eq (h : m.LeadsTo disk root name path) :
    m.candidate? root name = some path :=
  candidate?_eq_some_iff.mpr h.candidate

/-! ## The mapping that decides -/

/-- The mappings of a project in the order of its manifest. -/
def declared (disk : Disk) (root : String) : List Mapping :=
  (((disk.read (Path.join root "composer.json")).toOption.bind JsonValue.parse?).map
      fun manifest =>
    ofSection manifest "autoload" false ++ ofSection manifest "autoload-dev" true).getD []

theorem ofProject_eq (disk : Disk) (root : String) : ofProject disk root =
    (declared disk root).mergeSort fun a b => byteLength b.spacePrefix ≤
      byteLength a.spacePrefix := by
  unfold ofProject declared
  cases disk.read (Path.join root "composer.json") with
  | error e => simp [Except.toOption]
  | ok text =>
    simp only [Except.toOption, Option.bind_some]
    cases JsonValue.parse? text with
    | none => simp
    | some manifest => rfl

/-- The mapping leads to the file, no mapping of the project that leads to a file has a longer
prefix, and of those with a prefix of this length it is the first in the manifest. -/
structure Decides (m : Mapping) (disk : Disk) (root name path : String) : Prop where
  mem : m ∈ ofProject disk root
  leadsTo : m.LeadsTo disk root name path
  longest : ∀ m' ∈ ofProject disk root, ∀ path', m'.LeadsTo disk root name path' →
    byteLength m'.spacePrefix ≤ byteLength m.spacePrefix
  first : ∃ before after, declared disk root = before ++ m :: after ∧ ∀ m' ∈ before, ∀ path',
    m'.LeadsTo disk root name path' → byteLength m'.spacePrefix < byteLength m.spacePrefix

/-- Whether the mapping leads to some file and its prefix has a length. -/
def servesAt (disk : Disk) (root name : String) (length : Nat) (m : Mapping) : Bool :=
  m.serves disk root name && byteLength m.spacePrefix == length

theorem servesAt_iff {length : Nat} : m.servesAt disk root name length = true ↔
    m.serves disk root name = true ∧ byteLength m.spacePrefix = length := by
  rw [servesAt, Bool.and_eq_true, beq_iff_eq]

/-- Among mappings of one length the sorted list and the manifest have the same one first. -/
theorem find?_servesAt (disk : Disk) (root name : String) (length : Nat) :
    (ofProject disk root).find? (servesAt disk root name length) =
      (declared disk root).find? (servesAt disk root name length) := by
  rw [← List.head?_filter, ← List.head?_filter, ofProject_eq, filter_mergeSort]
  · intro a b c hab hbc
    exact decide_eq_true (Nat.le_trans (of_decide_eq_true hbc) (of_decide_eq_true hab))
  · intro a b
    simpa using Nat.le_total (byteLength b.spacePrefix) (byteLength a.spacePrefix)
  · intro a b ha hb
    rw [servesAt_iff] at ha hb
    exact decide_eq_true (by omega)

theorem Decides.find?_eq (h : m.Decides disk root name path) :
    (declared disk root).find? (servesAt disk root name (byteLength m.spacePrefix)) = some m := by
  obtain ⟨before, after, hdeclared, hbefore⟩ := h.first
  refine List.find?_eq_some_iff_append.mpr
    ⟨servesAt_iff.mpr ⟨serves_iff.mpr ⟨path, h.leadsTo⟩, rfl⟩, before, after, hdeclared,
      fun m' hm' => ?_⟩
  rw [Bool.not_eq_true', Bool.eq_false_iff]
  intro hserves
  obtain ⟨⟨path', hpath'⟩, hlength⟩ := (servesAt_iff.mp hserves).imp_left serves_iff.mp
  exact absurd (hbefore m' hm' path' hpath') (by omega)

/-- The first mapping of the list that leads to a file decides. -/
theorem decides_of_find? (h : (ofProject disk root).find? (serves disk root name) = some m)
    (hpath : m.LeadsTo disk root name path) : m.Decides disk root name path := by
  have hlongest : ∀ m' ∈ ofProject disk root, ∀ path', m'.LeadsTo disk root name path' →
      byteLength m'.spacePrefix ≤ byteLength m.spacePrefix := by
    intro m' hm' path' hpath'
    rcases eq_or_rel_of_find? (pairwise_ofProject disk root) h hm' (serves_iff.mpr ⟨path', hpath'⟩)
      with rfl | hle
    · exact Nat.le_refl _
    · exact hle
  have hsorted : (ofProject disk root).find? (servesAt disk root name (byteLength m.spacePrefix)) =
      some m := by
    obtain ⟨hm, before, after, hlist, hbefore⟩ := List.find?_eq_some_iff_append.mp h
    refine List.find?_eq_some_iff_append.mpr
      ⟨servesAt_iff.mpr ⟨hm, rfl⟩, before, after, hlist, fun m' hm' => ?_⟩
    simp only [servesAt, Bool.not_eq_true'] at hbefore ⊢
    rw [hbefore m' hm', Bool.false_and]
  rw [find?_servesAt] at hsorted
  obtain ⟨-, before, after, hdeclared, hbefore⟩ := List.find?_eq_some_iff_append.mp hsorted
  refine ⟨List.mem_of_find?_eq_some h, hpath, hlongest, before, after, hdeclared,
    fun m' hm' path' hpath' => ?_⟩
  have hmem : m' ∈ ofProject disk root := by
    rw [ofProject_eq, List.mem_mergeSort, hdeclared]
    exact List.mem_append_left _ hm'
  refine Nat.lt_of_le_of_ne (hlongest m' hmem path' hpath') fun hlength => ?_
  have hnot := hbefore m' hm'
  rw [servesAt_iff.mpr ⟨serves_iff.mpr ⟨path', hpath'⟩, hlength⟩] at hnot
  cases hnot

/-- Only one mapping decides, and it leads to one file. -/
theorem Decides.unique {m' : Mapping} {path' : String} (h : m.Decides disk root name path)
    (h' : m'.Decides disk root name path') : path = path' := by
  have hlength : byteLength m.spacePrefix = byteLength m'.spacePrefix :=
    Nat.le_antisymm (h'.longest m h.mem path h.leadsTo) (h.longest m' h'.mem path' h'.leadsTo)
  obtain rfl : m = m' := Option.some.inj (h.find?_eq.symm.trans (hlength ▸ h'.find?_eq))
  exact Option.some.inj (h.leadsTo.candidate?_eq.symm.trans h'.leadsTo.candidate?_eq)

end Mapping

open Mapping

/-- The lookup asks the mappings one after the other. -/
theorem locateClass_eq {className : String} (h : Text.lower (Name.unrooted className) ∉ typeWords)
    (mappings : List Mapping) (disk : Disk) (root : String) :
      locateClass mappings disk root className =
        (mappings.find? (serves disk root (Name.unrooted className))).bind
        (candidate? · root (Name.unrooted className)) := by
  rw [locateClass, if_neg (by simpa using h), List.find?_filterMap]
  rfl

/-- The mappings of a project are in normal form, and a class that has not the name of a type is
found exactly if some mapping leads from its name to a file that is there. It is found in the file
that the deciding mapping leads to. -/
theorem locateClass_decides (disk : Disk) (root : String) :
    (∀ m ∈ ofProject disk root, m.IsNormal) ∧
      ∀ className, Text.lower (Name.unrooted className) ∉ typeWords →
        ((locateClass (ofProject disk root) disk root className).isSome = true ↔
          ∃ m ∈ ofProject disk root, ∃ path, m.LeadsTo disk root (Name.unrooted className) path) ∧
        ∀ path, locateClass (ofProject disk root) disk root className = some path ↔
          ∃ m : Mapping, m.Decides disk root (Name.unrooted className) path := by
  refine ⟨fun m => isNormal_of_mem, fun className hword => ?_⟩
  rw [locateClass_eq hword]
  cases hfind : (ofProject disk root).find? (serves disk root (Name.unrooted className)) with
  | none =>
    have hnone : ∀ m ∈ ofProject disk root, ∀ path,
        ¬ m.LeadsTo disk root (Name.unrooted className) path :=
      fun m hm path hpath => List.find?_eq_none.mp hfind m hm (serves_iff.mpr ⟨path, hpath⟩)
    refine ⟨⟨by simp, ?_⟩, fun path => ⟨by simp, ?_⟩⟩
    · rintro ⟨m, hm, path, hpath⟩
      exact absurd hpath (hnone m hm path)
    · rintro ⟨m, hdecides⟩
      exact absurd hdecides.leadsTo (hnone m hdecides.mem path)
  | some m =>
    obtain ⟨path, hpath⟩ := serves_iff.mp (List.find?_some hfind)
    have hdecides := decides_of_find? hfind hpath
    rw [Option.bind_some, hpath.candidate?_eq]
    refine ⟨⟨fun _ => ⟨m, hdecides.mem, path, hpath⟩, fun _ => rfl⟩, fun path' => ⟨?_, ?_⟩⟩
    · intro heq
      obtain rfl := Option.some.inj heq
      exact ⟨m, hdecides⟩
    · rintro ⟨m', hdecides'⟩
      rw [hdecides.unique hdecides']

/-- A project with a directory for a namespace and two for one below it. A class of the
inner namespace lies in the second of these, and in the outer directory too. -/
def mappedDisk : Disk where
  nodes :=
    [(["p"], .directory), (["p", "src"], .directory), (["p", "src", "Models"], .directory),
      (["p", "a"], .directory), (["p", "b"], .directory),
        (["p", "src", "Models", "Book.php"], .file ""), (["p", "b", "Book.php"], .file ""),
      (["p", "composer.json"], .file ("\x7b\"autoload\":\x7b\"psr-4\":\x7b\"App\":\"src\"," ++
        "\"\\\\App\\\\Models\":[\"a\",\"b\"]\x7d\x7d\x7d"))]

theorem locateClass_decides_nested :
    locateClass (ofProject mappedDisk "/p") mappedDisk "/p" "\\App\\Models\\Book" =
      some "/p/b/Book.php" := by
  have hdeclared : declared mappedDisk "/p" =
      [⟨"App\\", "src/", false⟩, ⟨"App\\Models\\", "a/", false⟩,
          ⟨"App\\Models\\", "b/", false⟩] := by
    decide +kernel
  have hmem : ∀ m, m ∈ ofProject mappedDisk "/p" ↔ m ∈ declared mappedDisk "/p" := by
    intro m
    rw [ofProject_eq, List.mem_mergeSort]
  have hlength : ∀ m ∈ declared mappedDisk "/p", Text.byteLength m.spacePrefix ≤
      Text.byteLength "App\\Models\\" := by
    rw [hdeclared]
    decide +kernel
  have hmissing : ∀ path,
      ¬ LeadsTo ⟨"App\\Models\\", "a/", false⟩ mappedDisk "/p" "App\\Models\\Book" path := by
    intro path hpath
    exact absurd (serves_iff.mpr ⟨path, hpath⟩) (by decide +kernel)
  have hname : Name.unrooted "\\App\\Models\\Book" = "App\\Models\\Book" := by decide +kernel
  have hfound :=
    ((locateClass_decides mappedDisk "/p").2 "\\App\\Models\\Book" (by decide +kernel)).2
      "/p/b/Book.php"
  rw [hname] at hfound
  refine hfound.mpr ⟨⟨"App\\Models\\", "b/", false⟩, ?_⟩
  refine ⟨(hmem _).mpr (by simp [hdeclared]), ⟨⟨"Book", by decide +kernel⟩, by decide +kernel⟩, ?_,
    [⟨"App\\", "src/", false⟩, ⟨"App\\Models\\", "a/", false⟩], [], by rw [hdeclared]; rfl, ?_⟩
  · intro m' hm' _ _
    exact hlength m' ((hmem m').mp hm')
  · intro m' hm' path hpath
    rcases List.mem_cons.mp hm' with rfl | hm'
    · decide +kernel
    · obtain rfl := List.mem_singleton.mp hm'
      exact absurd hpath (hmissing path)

end ClassDocs

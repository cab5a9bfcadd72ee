import ClassDocs.Proofs.Coherence
import Mathlib.Data.List.Induction

/-!
# Which classes are known after a history of files

The table of classes has one place for each name, shared by all files, and remembers only which
names each file declared. Adding a file again takes those names out, whoever put in the class that
is there by then. So a class can be lost that another file still declares.

`own_isSome_iff` says exactly when. A class is found if the last content of some file declares it,
unless it was *withdrawn*: after the last call that declares it, a file is added again that
declared it before.
-/

namespace ClassDocs.Index

/-- The index after adding some files, read with a parser and given by path and content, one after
the other. -/
def addAll (parser : Source.Parser) (calls : List (String × String)) : Index :=
  calls.foldl (fun ix call => ix.add call.1 call.2) { parser }

/-- Whether a file of this path and content declares a class of a key. -/
def declares (parser : Source.Parser) (call : String × String) (k : String) : Bool :=
  (parser.classes call.1 call.2).any fun c => key c.name == k

/-- The last content given for a file. -/
def latest? (calls : List (String × String)) (file : String) : Option String :=
  (calls.reverse.find? (·.1 == file)).map Prod.snd

/-- The last content given for a file declares a class of a key. -/
def Holds (parser : Source.Parser) (calls : List (String × String)) (k file : String) :
    Prop :=
  ∃ content, latest? calls file = some content ∧ declares parser (file, content) k = true

/-- After the last call that declares a class, a file is added again whose content declared it
then. -/
def Withdrawn (parser : Source.Parser) (calls : List (String × String)) (k : String) : Prop :=
  ∃ before call after, calls = before ++ call :: after ∧ declares parser call k = true ∧
    (∀ later ∈ after, declares parser later k = false) ∧ ∃ file ∈ after.map Prod.fst,
      Holds parser (before ++ [call]) k file

/-! ## Histories -/

variable {parser : Source.Parser}

theorem latest?_append (calls more : List (String × String)) (file : String) :
    latest? (calls ++ more) file = (latest? more file).or (latest? calls file) := by
  unfold latest?
  rw [List.reverse_append, List.find?_append]
  cases more.reverse.find? (·.1 == file) <;> rfl

theorem latest?_of_not_mem {calls : List (String × String)} {file : String}
    (h : file ∉ calls.map Prod.fst) :
    latest? calls file = none := by
  unfold latest?
  rw [Option.map_eq_none_iff, List.find?_eq_none]
  intro call hcall hfile
  rw [beq_iff_eq] at hfile
  exact h (List.mem_map.mpr ⟨call, List.mem_reverse.mp hcall, hfile⟩)

theorem mem_of_latest? {calls : List (String × String)} {file content : String}
    (h : latest? calls file = some content) : (file, content) ∈ calls := by
  obtain ⟨call, hfind, rfl⟩ := Option.map_eq_some_iff.mp h
  have hfile : call.1 = file := by simpa using List.find?_some hfind
  subst hfile
  exact List.mem_reverse.mp (List.mem_of_find?_eq_some hfind)

theorem latest?_snoc (calls : List (String × String)) (call : String × String) (file : String) :
    latest? (calls ++ [call]) file = if call.1 == file then some call.2 else
      latest? calls file := by
  rw [latest?_append]
  unfold latest?
  cases hfile : call.1 == file <;> simp [hfile]

theorem holds_snoc (calls : List (String × String)) (call : String × String) (k file : String) :
    Holds parser (calls ++ [call]) k file ↔
      (call.1 = file ∧ declares parser call k = true) ∨
        (call.1 ≠ file ∧ Holds parser calls k file) := by
  unfold Holds
  rw [latest?_snoc]
  by_cases hfile : call.1 = file
  · subst hfile
    simp
  · have hb : (call.1 == file) = false := by simpa using hfile
    simp [hb, hfile]

/-- What a file holds is settled by the part of a history after which it is not added again. -/
theorem holds_append_of_not_mem {calls more : List (String × String)} {k file : String}
    (h : file ∉ more.map Prod.fst) :
    Holds parser (calls ++ more) k file ↔ Holds parser calls k file := by
  unfold Holds
  rw [latest?_append, latest?_of_not_mem h, Option.none_or]

/-- The last call that declares a class. -/
theorem exists_last_declaring {calls : List (String × String)} {k : String}
    (h : ∃ call ∈ calls, declares parser call k = true) :
    ∃ before call after, calls = before ++ call :: after ∧ declares parser call k = true ∧
      ∀ later ∈ after, declares parser later k = false := by
  induction calls using List.reverseRecOn with
  | nil => obtain ⟨call, hcall, -⟩ := h; simp at hcall
  | append_singleton calls call ih =>
    cases hcall : declares parser call k with
    | true => exact ⟨calls, call, [], rfl, hcall, by simp⟩
    | false =>
      have hbefore : ∃ call ∈ calls, declares parser call k = true := by
        obtain ⟨call', hmem, hdecl⟩ := h
        rcases List.mem_append.mp hmem with hmem | hmem
        · exact ⟨call', hmem, hdecl⟩
        · obtain rfl : call' = call := by simpa using hmem
          rw [hcall] at hdecl
          exact absurd hdecl (by simp)
      obtain ⟨before, last, after, rfl, hlast, hafter⟩ := ih hbefore
      refine ⟨before, last, after ++ [call], by simp, hlast, ?_⟩
      exact List.forall_mem_append.mpr ⟨hafter, List.forall_mem_singleton.mpr hcall⟩

/-! ## The table after a history -/

theorem addAll_snoc (parser : Source.Parser) (calls : List (String × String))
    (call : String × String) :
    addAll parser (calls ++ [call]) = (addAll parser calls).add call.1 call.2 := by
  simp [addAll]

@[simp]
theorem parser_addAll (parser : Source.Parser) (calls : List (String × String)) :
    (addAll parser calls).parser = parser := by
  induction calls using List.reverseRecOn with
  | nil => rfl
  | append_singleton calls call ih => rw [addAll_snoc, parser_add, ih]

/-- The index knows the names of the last content of each file. -/
theorem files_addAll (parser : Source.Parser) (calls : List (String × String)) (file : String) :
    (addAll parser calls).files.find? file =
      (latest? calls file).map fun content => (parser.classes file content).map (·.name) := by
  induction calls using List.reverseRecOn with
  | nil => rfl
  | append_singleton calls call ih =>
    have hfiles : (addAll parser (calls ++ [call])).files =
        (addAll parser calls).files.insert call.1
            ((parser.classes call.1 call.2).map (·.name)) := by
      rw [addAll_snoc, files_add, parser_addAll]
    rw [hfiles, latest?_snoc, Table.find?_insert, ih]
    by_cases hfile : call.1 = file
    · subst hfile
      simp
    · have hb : (call.1 == file) = false := by simpa using hfile
      have hb' : (file == call.1) = false := by simpa using Ne.symm hfile
      simp [hb, hb']

theorem mem_names_iff (parser : Source.Parser) (calls : List (String × String)) (k file : String) :
    k ∈ (((addAll parser calls).files.find? file).getD []).map key ↔
      Holds parser calls k file := by
  rw [files_addAll, Holds]
  cases latest? calls file with
  | none => simp
  | some content => simp [declares]

/-- **One more file**: what it declares is known, and what it declared before is not known from
elsewhere. -/
theorem contains_snoc (parser : Source.Parser) (calls : List (String × String))
    (call : String × String) (k : String) :
    (addAll parser (calls ++ [call])).classes.contains k = true ↔
      declares parser call k = true ∨
        ((addAll parser calls).classes.contains k = true ∧ ¬ Holds parser calls k call.1) := by
  rw [addAll_snoc, add, contains_addDecls, mem_names_iff, parser_addAll]
  rfl

/-! ## Withdrawn classes -/

/-- Where a history with one more call splits before that call. -/
theorem snoc_eq_append_cons {calls before after : List (String × String)}
    {call last : String × String} (heq : calls ++ [call] = before ++ last :: after)
    (hne : after ≠ []) :
    ∃ after', after = after' ++ [call] ∧ calls = before ++ last :: after' := by
  obtain ⟨after', later, hafter⟩ := (List.eq_nil_or_concat after).resolve_left hne
  rw [List.concat_eq_append] at hafter
  subst hafter
  rw [← List.cons_append, ← List.append_assoc] at heq
  obtain ⟨hcalls, hlater⟩ := List.append_inj' heq rfl
  obtain rfl : call = later := by simpa using hlater
  exact ⟨after', rfl, hcalls⟩

theorem not_withdrawn_of_declares {calls : List (String × String)}
    {call : String × String} {k : String} (h : declares parser call k = true) :
    ¬ Withdrawn parser (calls ++ [call]) k := by
  rintro ⟨before, last, after, heq, -, hafter, file, hfile, -⟩
  have hne : after ≠ [] := by rintro rfl; simp at hfile
  obtain ⟨after', rfl, -⟩ := snoc_eq_append_cons heq hne
  rw [hafter call (by simp)] at h
  exact absurd h (by simp)

/-- A call that does not declare a class withdraws it if its file held it. -/
theorem withdrawn_snoc {calls : List (String × String)} {call : String × String} {k : String}
    (h : declares parser call k = false) :
    Withdrawn parser (calls ++ [call]) k ↔ Withdrawn parser calls k ∨
      Holds parser calls k call.1 := by
  constructor
  · rintro ⟨before, last, after, heq, hlast, hafter, file, hfile, hheld⟩
    have hne : after ≠ [] := by rintro rfl; simp at hfile
    obtain ⟨after', rfl, rfl⟩ := snoc_eq_append_cons heq hne
    by_cases hmem : file ∈ after'.map Prod.fst
    · exact Or.inl ⟨before, last, after', rfl, hlast, (List.forall_mem_append.mp hafter).1,
        file, hmem, hheld⟩
    · rw [List.map_append, List.mem_append] at hfile
      obtain rfl : file = call.1 := by simpa using hfile.resolve_left hmem
      right
      rw [List.append_cons, holds_append_of_not_mem hmem]
      exact hheld
  · rintro (⟨before, last, after, rfl, hlast, hafter, file, hfile, hheld⟩
      | ⟨content, hlatest, hdecl⟩)
    · refine ⟨before, last, after ++ [call], by simp, hlast, ?_, file, ?_, hheld⟩
      · exact List.forall_mem_append.mpr ⟨hafter, List.forall_mem_singleton.mpr h⟩
      · rw [List.map_append]
        exact List.mem_append_left _ hfile
    · obtain ⟨before, last, after, rfl, hlast, hafter⟩ :=
        exists_last_declaring ⟨_, mem_of_latest? hlatest, hdecl⟩
      refine ⟨before, last, after ++ [call],
        by simp, hlast, ?_, call.1, by simp, content, ?_, hdecl⟩
      · exact List.forall_mem_append.mpr ⟨hafter, List.forall_mem_singleton.mpr h⟩
      · -- the content that declares the class was not given after the last call that declares it
        rw [List.append_cons, latest?_append, Option.or_eq_some_iff] at hlatest
        rcases hlatest with hlatest | ⟨-, hlatest⟩
        · rw [hafter _ (mem_of_latest? hlatest)] at hdecl
          exact absurd hdecl (by simp)
        · exact hlatest

/-- Which keys are known after a history. -/
theorem contains_addAll_iff (parser : Source.Parser) (calls : List (String × String))
    (k : String) :
    (addAll parser calls).classes.contains k = true ↔ (∃ file, Holds parser calls k file) ∧
      ¬ Withdrawn parser calls k := by
  induction calls using List.reverseRecOn with
  | nil =>
    constructor
    · intro h
      simp [addAll, Table.contains] at h
    · rintro ⟨⟨file, content, hlatest, -⟩, -⟩
      simp [latest?] at hlatest
  | append_singleton calls call ih =>
    rw [contains_snoc]
    cases hdecl : declares parser call k with
    | true =>
      have hheld : ∃ file, Holds parser (calls ++ [call]) k file :=
        ⟨call.1, (holds_snoc calls call k call.1).mpr (Or.inl ⟨rfl, hdecl⟩)⟩
      simp [hheld, not_withdrawn_of_declares hdecl]
    | false =>
      rw [withdrawn_snoc hdecl, ih]
      constructor
      · rintro (h | ⟨⟨⟨file, hfile⟩, hkept⟩, hheld⟩)
        · simp at h
        · refine ⟨⟨file, (holds_snoc calls call k file).mpr (Or.inr ⟨?_, hfile⟩)⟩,
            fun h => h.elim hkept hheld⟩
          rintro rfl
          exact hheld hfile
      · rintro ⟨⟨file, hfile⟩, hkept⟩
        rcases (holds_snoc calls call k file).mp hfile with ⟨-, h⟩ | ⟨-, hfile⟩
        · rw [hdecl] at h
          exact absurd h (by simp)
        · exact Or.inr ⟨⟨⟨file, hfile⟩, fun h => hkept (Or.inl h)⟩, fun h => hkept (Or.inr h)⟩

theorem reachable_addAll (parser : Source.Parser) (calls : List (String × String)) :
    Reachable (addAll parser calls) := by
  induction calls using List.reverseRecOn with
  | nil => exact .new (by intro p hp; simp at hp)
  | append_singleton calls call ih => rw [addAll_snoc]; exact .add _ _ ih

/-- **Which classes are found after a history of files.** Those that the last content of some file
declares, but for the withdrawn ones. -/
theorem own_isSome_iff (parser : Source.Parser) (calls : List (String × String)) (name : String) :
    (own name (addAll parser calls)).1.isSome = true ↔
      (∃ file content, latest? calls file = some content ∧
        declares parser (file, content) (key name) = true) ∧
        ¬ Withdrawn parser calls (key name) := by
  rw [own_of_unmapped (sound_reachable (reachable_addAll parser calls)).unmapped]
  exact contains_addAll_iff parser calls (key name)

/-- Two files declare a class, and the first is added again without it: the class is lost, although
the second file still declares it. -/
theorem own_eq_none_of_readded :
    let calls := [("a.php", "<?php class Foo {}"), ("b.php", "<?php class Foo {}"),
      ("a.php", "<?php class Bar {}")]
    (own "Foo" (addAll Source.reader calls)).1.isSome = false ∧
      latest? calls "b.php" = some "<?php class Foo {}" ∧
      declares Source.reader ("b.php", "<?php class Foo {}") (key "Foo") = true := by
  decide +kernel

end ClassDocs.Index

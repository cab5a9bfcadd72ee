import ClassDocs.Index.Basic

/-!
# What adding a file does to the table of classes

Adding a file first takes out every name the file had and then puts in every class it has now. Both
are loops over a list; here is what they leave under one key.
-/

namespace ClassDocs.Index

/-- Taking out some names leaves nothing under their keys and all else as it was. -/
theorem find?_dropClasses (names : List String) (classes : Table ClassDecl) (k : String) :
    (dropClasses classes names).find? k = if (names.map key).contains k then none else
      classes.find? k := by
  unfold dropClasses
  induction names generalizing classes with
  | nil => rfl
  | cons name names ih =>
    rw [List.foldl_cons, ih, Table.find?_erase, List.map_cons, List.contains_cons]
    cases hk : k == key name <;> cases (names.map key).contains k <;> rfl

/-- Putting in some declarations leaves the last one of a key there, and all else as it was. -/
theorem find?_putClasses (decls : List ClassDecl) (classes : Table ClassDecl) (k : String) :
    (putClasses classes decls).find? k =
      (decls.reverse.find? fun c => key c.name == k).or (classes.find? k) := by
  unfold putClasses
  induction decls generalizing classes with
  | nil => rfl
  | cons c decls ih =>
    rw [List.foldl_cons, ih, Table.find?_insert, List.reverse_cons, List.find?_append]
    have hcomm : (k == key c.name) = (key c.name == k) := Bool.beq_comm
    cases hk : key c.name == k <;> cases decls.reverse.find? (fun c => key c.name == k) <;>
      simp [hcomm, hk]

/-- What is under a key after adding a file: the file's last class of that key; else what was there
before, unless the file had a class of that key then. -/
theorem find?_addDecls (ix : Index) (file : String) (decls : List ClassDecl) (k : String) :
    (ix.addDecls file decls).classes.find? k =
      (decls.reverse.find? fun c => key c.name == k).or
        (if (((ix.files.find? file).getD []).map key).contains k then none else
          ix.classes.find? k) := by
  rw [← find?_dropClasses, ← find?_putClasses]
  rfl

/-- Which keys are known after adding a file: those of its classes, and those known before that it
did not have. -/
theorem contains_addDecls (ix : Index) (file : String) (decls : List ClassDecl) (k : String) :
    (ix.addDecls file decls).classes.contains k = true ↔
      (decls.any fun c => key c.name == k) = true ∨
        (ix.classes.contains k = true ∧ k ∉ ((ix.files.find? file).getD []).map key) := by
  have hnew : (decls.reverse.find? fun c => key c.name == k).isSome = decls.any fun c =>
    key c.name == k := by
    rw [Bool.eq_iff_iff, List.find?_isSome, List.any_eq_true]
    simp only [List.mem_reverse]
  rw [Table.contains, find?_addDecls, Option.isSome_or, hnew, Bool.or_eq_true]
  by_cases hold : k ∈ ((ix.files.find? file).getD []).map key
  · rw [if_pos (List.contains_iff_mem.mpr hold)]
    simp [hold]
  · rw [if_neg (fun h => hold (List.contains_iff_mem.mp h))]
    simp [hold, Table.contains]

/-- A class that is in the table after adding a file is the file's, under its own key, or was there
before. -/
theorem key_or_find?_of_addDecls {ix : Index} {file : String} {decls : List ClassDecl} {k : String}
    {c : ClassDecl} (h : (ix.addDecls file decls).classes.find? k = some c) :
    (c ∈ decls ∧ key c.name = k) ∨ ix.classes.find? k = some c := by
  rw [find?_addDecls, Option.or_eq_some_iff] at h
  rcases h with h | ⟨-, h⟩
  · have hkey := List.find?_some h
    exact Or.inl ⟨List.mem_reverse.mp (List.mem_of_find?_eq_some h), beq_iff_eq.mp hkey⟩
  · split at h
    · simp at h
    · exact Or.inr h

theorem mem_or_find?_of_addDecls {ix : Index} {file : String} {decls : List ClassDecl} {k : String}
    {c : ClassDecl} (h : (ix.addDecls file decls).classes.find? k = some c) :
    c ∈ decls ∨ ix.classes.find? k = some c :=
  (key_or_find?_of_addDecls h).imp_left And.left

end ClassDocs.Index

import ClassDocs.Proofs.Provenance

/-!
# Questions that find nothing

With a project at hand an unknown class is looked for on the disk, and a name for which there is no
file is noted, so that the disk is not asked again. The disk tells letter case apart and the note
does not. A question for a class that exists can so be answered by a note about another spelling of
its name.

A question that finds nothing leaves nothing behind, or a note, or one more file, which clears all
notes (`autoload_eq`). Which names are noted after a number of such questions follows from the
names asked for (`Project.note`), and this decides whether a class that could be found before is
still found (`own_isSome_after`).
-/

namespace ClassDocs

/-- The path and the text of the file in which a project looks for a class. -/
def Project.source? (p : Project) (name : String) : Option (String × String) :=
  (locateClass p.mappings p.disk p.root name).bind fun path =>
    (p.disk.read path).toOption.map fun text => (path, text)

/-- The names noted after one more question that finds nothing. -/
def Project.note (p : Project) (noted : List String) (name : String) : List String :=
  if noted.contains (Index.key name) then noted
  else if (p.source? name).isSome then [] else Index.key name :: noted

namespace Index

/-- A backslash in front of a name makes no difference. -/
theorem source?_congr (p : Project) {name name' : String}
    (h : Name.unrooted name = Name.unrooted name') :
    p.source? name = p.source? name' := by
  unfold Project.source? locateClass
  rw [h]

/-- Looking for the file of a class does nothing if the name is noted; else it adds the file or
notes the name. -/
theorem autoload_eq {ix : Index} {p : Project} (hp : ix.project = some p)
    (hmapped : p.mappings ≠ []) (name : String) :
    ix.autoload name =
      if ix.missing.contains (key name) then ix
      else match p.source? name with
        | some (path, text) => ix.add path text
        | none => { ix with missing := key name :: ix.missing } := by
  have hempty : p.mappings.isEmpty = false := by simpa using hmapped
  unfold autoload Project.source?
  simp only [hp, hempty, Bool.false_or]
  split
  · rfl
  cases locateClass p.mappings p.disk p.root name with
  | none => rfl
  | some path =>
    simp only [load, Option.bind_some]
    cases p.disk.read path with
    | error e => rfl
    | ok text => rfl

/-! ## Asking -/

/-- A question for a class. -/
inductive Question where
  | own (name : String)
  | describe (name : String)

namespace Question

def name : Question → String
  | own name | describe name => name

/-- What is found. -/
def ask : Question → Lookup (Option ClassDecl)
  | own name => Index.own name
  | describe name => do return (← Index.describe name).toOption

end Question

/-- `Unanswered ix questions ix'`: the questions are asked one after the other, from `ix` to `ix'`,
and find nothing. -/
inductive Unanswered : Index → List Question → Index → Prop where
  | nil (ix : Index) : Unanswered ix [] ix
  | cons {ix ix' : Index} {q : Question} {questions : List Question} : (q.ask ix).1 = none →
      Unanswered (q.ask ix).2 questions ix' → Unanswered ix (q :: questions) ix'

theorem own_eq_none {ix : Index} {name : String} (h : (own name ix).1 = none) :
    ix.classes.find? (key name) = none ∧ (own name ix).2 = ix.autoload name := by
  unfold own at h ⊢
  cases hfind : ix.classes.find? (key name) with
  | some c => simp [hfind] at h
  | none => exact ⟨rfl, rfl⟩

/-- A walk that goes on if a declaration was found, and then finds something. -/
theorem bind_own_eq_none {rest : Option ClassDecl → Lookup (Option ClassDecl × Bool)}
    (hnone : ∀ ix, rest none ix = ((none, false), ix))
    (hsome : ∀ c, Ensures (fun _ => True) (rest (some c)) fun r => r.1.isSome = true)
    {ix : Index} {name : String} (h : ((own name >>= rest) ix).1.1 = none) :
    (own name ix).1 = none ∧ ((own name >>= rest) ix).2 = (own name ix).2 := by
  have hbind : (own name >>= rest) ix = rest (own name ix).1 (own name ix).2 := rfl
  rw [hbind] at h ⊢
  cases hown : (own name ix).1 with
  | none => exact ⟨rfl, by rw [hnone]⟩
  | some c =>
    have hfound := (hsome c (own name ix).2 trivial).1
    rw [hown] at h
    rw [h] at hfound
    cases hfound

/-- A walk finds nothing only if there is no declaration to start with. -/
theorem flatten_eq_none {bound : Nat} {stack : List String} {name : String} {ix : Index}
    (h : (flatten (bound + 1) stack name ix).1.1 = none) :
    (own name ix).1 = none ∧ (flatten (bound + 1) stack name ix).2 = (own name ix).2 := by
  simp only [flatten] at h ⊢
  rw [get_bind] at h ⊢
  cases hmem : ix.flattened.find? (key name) with
  | some c =>
    simp only [hmem] at h
    cases h
  | none =>
    simp only [hmem] at h ⊢
    refine bind_own_eq_none (fun _ => rfl) (fun c => ?_) h
    simp only
    split
    · exact Ensures.pure rfl
    refine Ensures.bind (Q := fun _ => True) (fun _ _ => ⟨trivial, trivial⟩) fun merged _ => ?_
    refine Ensures.bind (Q := fun _ => True) (fun _ _ => ⟨trivial, trivial⟩) fun result _ => ?_
    split
    · exact Ensures.bind (Ensures.modify fun _ _ => trivial) fun _ _ => Ensures.pure rfl
    · exact Ensures.pure rfl

theorem ask_describe (name : String) (ix : Index) :
    (Question.describe name).ask ix =
      ((flatten ix.bound [] name ix).1.1, (flatten ix.bound [] name ix).2) := by
  have hask : (Question.describe name).ask ix =
      (Except.toOption (describe name ix).1, (describe name ix).2) := rfl
  have hflat : describe? name ix =
      ((flatten ix.bound [] name ix).1.1, (flatten ix.bound [] name ix).2) := rfl
  rw [hask, describe_apply, hflat]
  cases (flatten ix.bound [] name ix).1.1 <;> rfl

/-- A question that finds nothing does no more than look for the file of the class. -/
theorem ask_eq_none {q : Question} {ix : Index} (h : (q.ask ix).1 = none) :
    ix.classes.find? (key q.name) = none ∧ (q.ask ix).2 = ix.autoload q.name := by
  cases q with
  | own name => exact own_eq_none h
  | describe name =>
    rw [ask_describe] at h ⊢
    obtain ⟨hown, hwalk⟩ := flatten_eq_none h
    obtain ⟨hfind, hafter⟩ := own_eq_none hown
    exact ⟨hfind, hwalk.trans hafter⟩

/-! ## The notes and the table after a question -/

variable {p : Project} {k : String} {ix ix' : Index}

theorem parser_autoload (ix : Index) (name : String) : (ix.autoload name).parser = ix.parser := by
  rcases autoload_cases ix name with h | h | ⟨path, text, h⟩ <;> simp [h]

theorem project_autoload (ix : Index) (name : String) :
    (ix.autoload name).project = ix.project := by
  rcases autoload_cases ix name with h | h | ⟨path, text, h⟩ <;> simp [h]

/-- No class that is known is noted as missing. -/
def Noted (ix : Index) : Prop := ∀ noted ∈ ix.missing, ix.classes.find? noted = none

/-- A name is noted only when there is no class of this name, and all notes go when a file is
added. -/
theorem Noted.autoload (h : Noted ix) {name : String}
    (hnone : ix.classes.find? (key name) = none) :
    Noted (ix.autoload name) := by
  rcases autoload_cases ix name with heq | heq | ⟨path, text, heq⟩ <;> rw [heq]
  · exact h
  · exact List.forall_mem_cons.mpr ⟨hnone, h⟩
  · simp [Noted]

theorem steady_noted : Steady Noted where
  own := by
    intro name i hi
    refine ⟨trivial, ?_⟩
    unfold own
    cases hfind : i.classes.find? (key name) with
    | some c => exact hi
    | none => exact hi.autoload hfind
  remember := fun i flattened hi => hi

/-- **No known class is noted as missing**, in any state. -/
theorem noted_reached {project : Option Project} (h : Reached project ix) : Noted ix :=
  steady_noted.reached (fun _ => by simp [Noted]) (fun ix file content _ => by simp [Noted]) h

theorem steady_project (project : Option Project) : Steady fun i => i.project = project where
  own := by
    intro name i hi
    refine ⟨trivial, ?_⟩
    unfold own
    cases i.classes.find? (key name) with
    | some c => exact hi
    | none => exact (project_autoload i name).trans hi
  remember := fun i flattened hi => hi

theorem project_reached {project : Option Project} (h : Reached project ix) :
    ix.project = project :=
  (steady_project project).reached (fun _ => rfl) (fun _ _ _ hi => hi) h

/-- A file that the index has been given with a class of key `k` in it declares the class on the
disk of the project too, if it is there. -/
def Current (p : Project) (k : String) (ix : Index) : Prop :=
  ∀ path names text, ix.files.find? path = some names → p.disk.read path = .ok text →
    k ∈ names.map key → (ix.parser.classes path text).any (fun c => key c.name == k) = true

theorem current_new (p : Project) (k : String) :
    Current p k { project := some p } := by simp [Current]

/-- Adding a file as it is on the disk. -/
theorem Current.add (h : Current p k ix) {path text : String}
    (hread : p.disk.read path = .ok text) :
    Current p k (ix.add path text) := by
  intro path' names text' hnames hread' hk
  rw [files_add, Table.find?_insert] at hnames
  split at hnames
  · rename_i hpath
    rw [beq_iff_eq] at hpath
    subst hpath
    rw [hread, Except.ok.injEq] at hread'
    subst hread'
    rw [← Option.some.inj hnames, List.map_map] at hk
    obtain ⟨c, hc, hkey⟩ := List.mem_map.mp hk
    exact List.any_eq_true.mpr ⟨c, hc, beq_iff_eq.mpr hkey⟩
  · exact h path' names text' hnames hread' hk

/-- A file that is added again does not lose the class. -/
theorem Current.contains_add (h : Current p k ix) {path text : String}
    (hread : p.disk.read path = .ok text) (hk : ix.classes.contains k = true) :
    (ix.add path text).classes.contains k = true := by
  refine (contains_addDecls ix path _ k).mpr ?_
  by_cases hold : k ∈ ((ix.files.find? path).getD []).map key
  · left
    cases hnames : ix.files.find? path with
    | none => simp [hnames] at hold
    | some names =>
      rw [hnames, Option.getD_some] at hold
      exact h path names text hnames hread hold
  · exact Or.inr ⟨hk, hold⟩

theorem read_of_source? {name path text : String} (h : p.source? name = some (path, text)) :
    p.disk.read path = .ok text := by
  unfold Project.source? at h
  obtain ⟨path', -, htext⟩ := Option.bind_eq_some_iff.mp h
  cases hread : p.disk.read path' with
  | error e =>
    rw [hread] at htext
    cases htext
  | ok text' =>
    rw [hread] at htext
    obtain ⟨rfl, rfl⟩ := Prod.mk.inj (Option.some.inj htext)
    exact hread

/-- Looking for a file leaves an index that is current, and still knows the class if it did. -/
theorem Current.autoload (h : Current p k ix) (hp : ix.project = some p)
    (hmapped : p.mappings ≠ []) (name : String) :
    Current p k (ix.autoload name) ∧
      (ix.classes.contains k = true → (ix.autoload name).classes.contains k = true) := by
  rw [autoload_eq hp hmapped]
  split
  · exact ⟨h, id⟩
  cases hsource : p.source? name with
  | none => exact ⟨h, id⟩
  | some source =>
    have hread := read_of_source? hsource
    exact ⟨h.add hread, h.contains_add hread⟩

theorem missing_autoload (hp : ix.project = some p) (hmapped : p.mappings ≠ []) (name : String) :
    (ix.autoload name).missing = p.note ix.missing name := by
  rw [autoload_eq hp hmapped, Project.note]
  split
  · rfl
  cases p.source? name <;> rfl

/-- What a number of questions that find nothing leaves behind. -/
structure Leaves (p : Project) (k : String) (names : List String) (ix ix' : Index) : Prop where
  parser : ix'.parser = ix.parser
  project : ix'.project = some p
  current : Current p k ix'
  missing : ix'.missing = names.foldl p.note ix.missing
  known : ix.classes.contains k = true → ix'.classes.contains k = true

theorem Current.unanswered (hmapped : p.mappings ≠ []) {questions : List Question}
    (hasked : Unanswered ix questions ix') (hp : ix.project = some p) (h : Current p k ix) :
    Leaves p k (questions.map Question.name) ix ix' := by
  induction hasked with
  | nil ix => exact ⟨rfl, hp, h, rfl, id⟩
  | @cons ix ix' q questions hnone _ ih =>
    obtain ⟨-, hafter⟩ := ask_eq_none hnone
    obtain ⟨hcurrent, hgrows⟩ := h.autoload hp hmapped q.name
    rw [hafter] at ih
    obtain ⟨hparser, hproject, hcurrent', hnoted, hgrows'⟩ :=
      ih ((project_autoload ix q.name).trans hp) hcurrent
    refine ⟨hparser.trans (parser_autoload ix q.name), hproject, hcurrent', ?_,
      fun hk => hgrows' (hgrows hk)⟩
    rw [hnoted, missing_autoload hp hmapped]
    rfl

/-- Questions that find nothing lead from one state of the index to another. -/
theorem Unanswered.reached {project : Option Project} {questions : List Question}
    (hasked : Unanswered ix questions ix') (h : Reached project ix) : Reached project ix' := by
  induction hasked with
  | nil ix => exact h
  | @cons ix ix' q questions _ _ ih =>
    refine ih ?_
    cases q with
    | own name => exact h.own name
    | describe name => exact h.describe name

/-! ## Classes that could be found before -/

/-- The file in which a project looks for a class declares it, as a parser reads it. -/
def Provides (parser : Source.Parser) (p : Project) (name : String) : Prop :=
  ∃ path text, p.source? name = some (path, text) ∧
    (parser.classes path text).any (fun c => key c.name == key name) = true

/-- A class is found if it is known, or if there is no note about it and the project has it. -/
theorem isSome_own_iff (hp : ix.project = some p) (hmapped : p.mappings ≠ []) (name : String) :
    (own name ix).1.isSome = true ↔
      ix.classes.contains (key name) = true ∨
        (key name ∉ ix.missing ∧ Provides ix.parser p name) := by
  cases hfind : ix.classes.find? (key name) with
  | some c => simp [own, Table.contains, hfind]
  | none =>
    have hown : (own name ix).1 = (ix.autoload name).classes.find? (key name) := by
      simp [own, hfind]
    have hunknown : ix.classes.contains (key name) = false := by simp [Table.contains, hfind]
    rw [hown, autoload_eq hp hmapped, hunknown]
    by_cases hnoted : key name ∈ ix.missing
    · rw [if_pos (List.contains_iff_mem.mpr hnoted), hfind]
      simp [hnoted]
    rw [if_neg (fun hn => hnoted (List.contains_iff_mem.mp hn))]
    unfold Provides
    cases hsource : p.source? name with
    | none => simp [hfind]
    | some source =>
      obtain ⟨path, text⟩ := source
      have hadd := contains_addDecls ix path (ix.parser.classes path text) (key name)
      rw [hunknown, Table.contains] at hadd
      simp only [Bool.false_eq_true, false_and, or_false, false_or, hnoted, not_false_eq_true,
        true_and] at hadd ⊢
      refine Iff.trans hadd ⟨fun hany => ⟨path, text, rfl, hany⟩, ?_⟩
      rintro ⟨path', text', heq, hany⟩
      obtain ⟨rfl, rfl⟩ := Prod.mk.inj (Option.some.inj heq)
      exact hany

theorem not_mem_note {name name' : String} (hsource : (p.source? name).isSome = true)
    (hspelling : key name' = key name → Name.unrooted name' = Name.unrooted name)
    {noted : List String} (hnot : key name ∉ noted) : key name ∉ p.note noted name' := by
  unfold Project.note
  split
  · exact hnot
  split
  · exact List.not_mem_nil
  · rename_i hnone
    rw [List.mem_cons, not_or]
    refine ⟨fun heq => hnone ?_, hnot⟩
    rw [source?_congr p (hspelling heq.symm)]
    exact hsource

/-- A class whose file is there is not noted by questions that spell its name as it is. -/
theorem not_mem_foldl_note {name : String} (hsource : (p.source? name).isSome = true)
    {names : List String}
    (hspelling : ∀ name' ∈ names, key name' = key name → Name.unrooted name' = Name.unrooted name)
    {noted : List String} (hnot : key name ∉ noted) : key name ∉ names.foldl p.note noted := by
  induction names generalizing noted with
  | nil => exact hnot
  | cons name' names ih =>
    rw [List.forall_mem_cons] at hspelling
    exact ih hspelling.2 (not_mem_note hsource hspelling.1 hnot)

/--
A class that could be found before some questions that found nothing is found after them, unless
its name is noted, and the name is never noted if it was not asked for in another spelling.
-/
theorem own_isSome_after {name : String} (hreach : Reached (some p) ix)
    (h : Current p (key name) ix) (hmapped : p.mappings ≠ []) {questions : List Question}
    (hasked : Unanswered ix questions ix') (hfound : (own name ix).1.isSome = true) :
    ((own name ix').1.isSome = true ↔
      key name ∉ (questions.map Question.name).foldl p.note ix.missing) ∧
      ((∀ q ∈ questions, key q.name = key name → Name.unrooted q.name = Name.unrooted name) →
        (own name ix').1.isSome = true) := by
  have hp := project_reached hreach
  obtain ⟨hparser, hproject, -, hnoted, hgrows⟩ := h.unanswered hmapped hasked hp
  rw [isSome_own_iff hproject hmapped, ← hnoted, hparser]
  have hbefore := (isSome_own_iff hp hmapped name).mp hfound
  have hiff : (ix'.classes.contains (key name) = true ∨
      (key name ∉ ix'.missing ∧ Provides ix.parser p name)) ↔ key name ∉ ix'.missing := by
    constructor
    · rintro (hknown | ⟨hnot, -⟩)
      · -- there is no note about a class that is known
        intro hnote
        rw [Table.contains, noted_reached (hasked.reached hreach) _ hnote] at hknown
        cases hknown
      · exact hnot
    · intro hnot
      rcases hbefore with hknown | ⟨-, hprovides⟩
      · exact Or.inl (hgrows hknown)
      · exact Or.inr ⟨hnot, hprovides⟩
  refine ⟨hiff, fun hspelling => ?_⟩
  -- a class that was known stays known; else its file is there, so that asking for it by that name
  -- would not fail
  rcases hbefore with hknown | ⟨hnot, path, text, hsource, hany⟩
  · exact Or.inl (hgrows hknown)
  · refine Or.inr ⟨?_, path, text, hsource, hany⟩
    rw [hnoted]
    refine not_mem_foldl_note (Option.isSome_of_eq_some hsource) ?_ hnot
    intro name' hname'
    obtain ⟨q, hq, rfl⟩ := List.mem_map.mp hname'
    exact hspelling q hq

/-- A project with one class, and with a file that does not declare the class it is named for. -/
def bookProject : Project where
  root := "/"
  mappings := [⟨"App\\", "src/", false⟩]
  disk :=
    { nodes :=
      [(["src"], .directory),
        (["src", "Book.php"], .file (some "<?php namespace App; class Book {}")),
        (["src", "Shelf.php"], .file (some "<?php namespace App; trait Stack {}"))] }

/-- A note about another spelling is cleared by a file that is read in vain. -/
theorem own_isSome_after_cleared :
    let ix : Index := { project := some bookProject }
    let ix' := ((Question.describe "App\\Shelf").ask ((Question.own "App\\BOOK").ask ix).2).2
    Unanswered ix [.own "App\\BOOK", .describe "App\\Shelf"] ix' ∧
        (own "App\\Book" ix').1.isSome = true := by
  intro ix ix'
  have hasked : Unanswered ix [.own "App\\BOOK", .describe "App\\Shelf"] ix' :=
    .cons (Option.isNone_iff_eq_none.mp (by decide +kernel))
      (.cons (Option.isNone_iff_eq_none.mp (by decide +kernel)) (.nil _))
  have hfound : (own "App\\Book" ix).1.isSome = true := by decide +kernel
  have hafter := own_isSome_after .new (current_new bookProject _) (by decide) hasked hfound
  exact ⟨hasked, hafter.1.mpr (by decide +kernel)⟩

/-- Asking for a class in capitals first makes it unknown. -/
theorem own_eq_none_of_other_spelling :
    let ix : Index := { project := some bookProject }
    (own "App\\Book" ix).1.isSome = true ∧ (own "App\\BOOK" ix).1.isSome = false ∧
      (own "App\\Book" (own "App\\BOOK" ix).2).1.isSome = false := by
  decide +kernel

end Index

end ClassDocs

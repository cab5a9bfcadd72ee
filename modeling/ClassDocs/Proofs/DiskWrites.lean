import ClassDocs.Proofs.PagePaths

/-!
# Files written one after another

A file that has been written can be read again, whatever is written after it to other places. The
place of a path is found without looking at the tree (`placeOf`): writing makes the directories
that the path leads through, and from then on following the path ends at that place, also in every
later tree, since no directory is ever lost (`Grows`).

This needs a tree in which each place lies in a directory (`IsTree`), and writing keeps it so.
-/

namespace ClassDocs

namespace Disk

/-! ## Places -/

/-- The place that a part of a path leads to from a directory. -/
def enter (place : List String) (part : String) : List String :=
  if part == "" || part == "." then place else if part == ".." then place.dropLast else
    place ++ [part]

/-- The directory that a path starts from. -/
def startOf (disk : Disk) (path : String) : List String :=
  if Path.isAbsolute path then [] else disk.workDir

/-- The place of a path. -/
def placeOf (disk : Disk) (path : String) : List String :=
  (partsOf path).foldl enter (disk.startOf path)

theorem enter_of_proper {part : String} (h : Path.Proper part) (place : List String) :
    enter place part = place ++ [part] := by
  simp [enter, h.ne_empty, h.ne_dot, h.ne_dots]

theorem foldl_enter_of_proper {parts : List String} (hp : ∀ p ∈ parts, Path.Proper p)
    (place : List String) :
    parts.foldl enter place = place ++ parts := by
  induction parts generalizing place with
  | nil => simp
  | cons p parts ih =>
    obtain ⟨hp, hparts⟩ := List.forall_mem_cons.mp hp
    rw [List.foldl_cons, ih hparts, enter_of_proper hp, List.append_assoc, List.singleton_append]

/-- The places of the paths below a directory start alike. -/
theorem exists_base (disk : Disk) (directory : String) :
    ∃ base, ∀ parts, (∀ p ∈ parts, Path.Proper p) → parts ≠ [] →
    disk.placeOf (Path.join directory (TypeExpr.joinTexts "/" parts)) = base ++ parts := by
  obtain ⟨front, -, -, hjoin⟩ := Path.exists_front directory
  refine ⟨front.foldl enter (disk.startOf directory), fun parts hp hne => ?_⟩
  have hrelative := Path.isAbsolute_joinTexts hp hne
  rw [placeOf, startOf, Path.isAbsolute_join hrelative, hjoin _ hrelative,
    Path.partsOf_joinTexts hp hne, List.foldl_append, foldl_enter_of_proper hp]
  rfl

/-! ## Trees -/

/-- Every place lies in a directory, and the working directory is one. -/
structure IsTree (disk : Disk) : Prop where
  workDir : disk.nodeAt disk.workDir = some .directory
  parent : ∀ place node, disk.nodeAt place = some node →
    disk.nodeAt place.dropLast = some .directory

/-- Directories stay directories. -/
structure Grows (disk disk' : Disk) : Prop where
  workDir : disk'.workDir = disk.workDir
  directory : ∀ place, disk.nodeAt place = some .directory → disk'.nodeAt place = some .directory

/-- The file at a place keeps its text. -/
def KeepsFile (place : List String) (disk disk' : Disk) : Prop :=
  ∀ text, disk.nodeAt place = some (.file text) → disk'.nodeAt place = some (.file text)

theorem IsTree.start {disk : Disk} (h : IsTree disk) (path : String) :
    disk.nodeAt (disk.startOf path) = some .directory := by
  unfold startOf
  split
  · rfl
  · exact h.workDir

theorem Grows.refl (disk : Disk) : Grows disk disk := ⟨rfl, fun _ h => h⟩

theorem Grows.trans {a b c : Disk} (hab : Grows a b) (hbc : Grows b c) : Grows a c :=
  ⟨hbc.workDir.trans hab.workDir, fun place h => hbc.directory place (hab.directory place h)⟩

theorem Grows.startOf {disk disk' : Disk} (h : Grows disk disk') (path : String) :
    disk'.startOf path = disk.startOf path := by
  rw [Disk.startOf, Disk.startOf, h.workDir]

theorem Grows.placeOf {disk disk' : Disk} (h : Grows disk disk') (path : String) :
    disk'.placeOf path = disk.placeOf path := by
  rw [Disk.placeOf, Disk.placeOf, h.startOf]

theorem follow_cons {disk : Disk} {place : List String} (h : disk.nodeAt place = some .directory)
    (part : String) (parts : List String) :
    disk.follow place (part :: parts) = disk.follow (enter place part) parts := by
  rw [follow, h, enter]
  dsimp only
  split
  · rfl
  · split <;> rfl

theorem follow_append {disk : Disk} {place found : List String} {front : List String}
    (h : disk.follow place front = .ok found) (back : List String) :
    disk.follow place (front ++ back) = disk.follow found back := by
  induction front generalizing place with
  | nil =>
    obtain rfl := Except.ok.inj h
    rfl
  | cons part front ih =>
    cases hnode : disk.nodeAt place with
    | none => simp [follow, hnode] at h
    | some node =>
      cases node with
      | file text => simp [follow, hnode] at h
      | directory =>
        rw [follow_cons hnode] at h
        rw [List.cons_append, follow_cons hnode, ih h]

/-- A path that leads to a place still does when there are more directories. -/
theorem Grows.follow {disk disk' : Disk} (hgrows : Grows disk disk')
    {place parts found : List String} (h : disk.follow place parts = .ok found) :
    disk'.follow place parts = .ok found := by
  induction parts generalizing place with
  | nil => exact h
  | cons part parts ih =>
    cases hnode : disk.nodeAt place with
    | none => simp [Disk.follow, hnode] at h
    | some node =>
      cases node with
      | file text => simp [Disk.follow, hnode] at h
      | directory =>
        rw [follow_cons hnode] at h
        rw [follow_cons (hgrows.directory _ hnode), ih h]

theorem lookup_filter_ne {nodes : List (List String × DiskNode)} (place other : List String) :
    (nodes.filter fun n => n.1 != place).lookup other = if other = place then none else
      nodes.lookup other := by
  induction nodes with
  | nil => simp
  | cons n nodes ih =>
    obtain ⟨p, node⟩ := n
    by_cases hp : p = place
    · subst hp
      rw [List.filter_cons_of_neg (by simp), ih]
      by_cases ho : other = p
      · rw [if_pos ho, if_pos ho]
      · rw [if_neg ho, if_neg ho, List.lookup_cons, beq_false_of_ne ho]
    · rw [List.filter_cons_of_pos (by simpa using hp), List.lookup_cons, List.lookup_cons, ih]
      by_cases ho : other = p
      · simp [ho, hp]
      · rw [beq_false_of_ne ho]

theorem nodeAt_put (disk : Disk) {place : List String} (hne : place ≠ []) (node : DiskNode)
    (other : List String) :
    (disk.put place node).nodeAt other = if other = place then some node else
      disk.nodeAt other := by
  unfold nodeAt put
  by_cases hempty : other = []
  · subst hempty
    simp [hne.symm]
  · have hcons : other.isEmpty = false := by simpa using hempty
    simp only [hcons, Bool.false_eq_true, if_false]
    rw [List.lookup_append, lookup_filter_ne]
    by_cases ho : other = place
    · simp [ho]
    · simp [ho, List.lookup_cons, beq_false_of_ne ho]

section Put

variable {disk : Disk} {place : List String} (hne : place ≠ [])
  (hfree : disk.nodeAt place ≠ some .directory) (node : DiskNode)
include hne hfree

/-- A node put where no directory is leaves all directories as they are. -/
theorem grows_put : Grows disk (disk.put place node) := by
  refine ⟨rfl, fun other hother => ?_⟩
  have hdiffer : other ≠ place := fun heq => hfree (heq ▸ hother)
  rw [nodeAt_put disk hne, if_neg hdiffer, hother]

theorem IsTree.put (h : IsTree disk) (hparent : disk.nodeAt place.dropLast = some .directory) :
    IsTree (disk.put place node) where
  workDir := (grows_put hne hfree node).directory _ h.workDir
  parent := by
    intro other node' hnode
    refine (grows_put hne hfree node).directory _ ?_
    rw [nodeAt_put disk hne] at hnode
    split at hnode
    · rename_i heq
      rw [heq]
      exact hparent
    · exact h.parent other node' hnode

end Put

/-! ## Writing -/

/-- What making directories comes to: the parts lead to a directory, and nothing is lost. -/
structure Opened (disk : Disk) (place parts : List String) (disk' : Disk) (found : List String) :
    Prop where
  tree : IsTree disk'
  grows : Grows disk disk'
  keeps : ∀ other, KeepsFile other disk disk'
  directory : disk'.nodeAt found = some .directory
  follow : disk'.follow place parts = .ok found
  found_eq : found = parts.foldl enter place

theorem Opened.cons {disk mid disk' : Disk} {place next parts found : List String} {part : String}
    (h : Opened mid next parts disk' found) (hnext : enter place part = next)
    (hplace : disk.nodeAt place = some .directory) (hgrows : Grows disk mid)
    (hkeeps : ∀ other, KeepsFile other disk mid) :
    Opened disk place (part :: parts) disk' found where
  tree := h.tree
  grows := hgrows.trans h.grows
  keeps := fun other text hfile => h.keeps other text (hkeeps other text hfile)
  directory := h.directory
  follow := by rw [follow_cons ((hgrows.trans h.grows).directory _ hplace), hnext, h.follow]
  found_eq := by rw [List.foldl_cons, hnext, h.found_eq]

theorem makeDirs_opened {disk disk' : Disk} {place parts found : List String} (htree : IsTree disk)
    (hplace : disk.nodeAt place = some .directory)
    (h : disk.makeDirs place parts = some (disk', found)) :
    Opened disk place parts disk' found := by
  fun_induction makeDirs disk place parts with
  | case1 disk place =>
    obtain ⟨rfl, rfl⟩ := Prod.mk.inj (Option.some.inj h)
    exact ⟨htree, .refl _, fun _ _ h => h, hplace, rfl, rfl⟩
  | case2 disk place part parts hskip ih =>
    have henter : enter place part = place := by rw [enter, if_pos hskip]
    exact (ih htree hplace h).cons henter hplace (.refl _) fun _ _ h => h
  | case3 disk place part parts hskip hup ih =>
    have henter : enter place part = place.dropLast := by rw [enter, if_neg hskip, if_pos hup]
    exact (ih htree (htree.parent _ _ hplace) h).cons henter hplace (.refl _) fun _ _ h => h
  | case4 disk place part parts hskip hup next hnode ih =>
    have henter : enter place part = next := by rw [enter, if_neg hskip, if_neg hup]
    exact (ih htree hnode h).cons henter hplace (.refl _) fun _ _ h => h
  | case5 disk place part parts hskip hup next text hnode => cases h
  | case6 disk place part parts hskip hup next hnode ih =>
    have henter : enter place part = next := by rw [enter, if_neg hskip, if_neg hup]
    have hne : next ≠ [] := by simp [next]
    have hfree : disk.nodeAt next ≠ some .directory := by simp [hnode]
    have hparent : disk.nodeAt next.dropLast = some .directory := by simpa [next] using hplace
    have hkeeps : ∀ other, KeepsFile other disk (disk.put next .directory) := by
      intro other text hfile
      have hdiffer : other ≠ next := by
        rintro rfl
        rw [hnode] at hfile
        cases hfile
      rw [nodeAt_put disk hne, if_neg hdiffer, hfile]
    have hopened :=
      ih (htree.put hne hfree .directory hparent) (by rw [nodeAt_put disk hne, if_pos rfl]) h
    exact hopened.cons henter hplace (grows_put hne hfree .directory) hkeeps

/-- What writing a file comes to: it is there, at the place of its path, and nothing else is
lost. -/
structure Wrote (disk : Disk) (path : String) (text : Option String) (disk' : Disk) : Prop where
  tree : IsTree disk'
  grows : Grows disk disk'
  keeps : ∀ other, other ≠ disk.placeOf path → KeepsFile other disk disk'
  file : disk'.nodeAt (disk.placeOf path) = some (.file text)
  locate : disk'.locate path = .ok (disk.placeOf path)

/-- A write makes the directories of the path and then puts the file where no directory is. -/
theorem write_eq_some {disk disk' : Disk} {path : String} {text : Option String}
    (h : disk.write path text = some disk') : ∃ mid place name,
      disk.makeDirs (disk.startOf path) (partsOf path).dropLast = some (mid, place) ∧
      partsOf path = (partsOf path).dropLast ++ [name] ∧ enter place name = place ++ [name] ∧
      mid.nodeAt (place ++ [name]) ≠ some .directory ∧
        disk' = mid.put (place ++ [name]) (.file text) := by
  unfold write at h
  dsimp only at h
  split at h
  · rename_i mid place name hdirs hlast
    split at h
    · cases h
    · rename_i hname
      have hparts : partsOf path = (partsOf path).dropLast ++ [name] := by
        obtain ⟨init, hinit⟩ := List.getLast?_eq_some_iff.mp hlast
        rw [hinit, List.dropLast_concat]
      have henter : enter place name = place ++ [name] := by
        simp only [Bool.or_eq_true, not_or] at hname
        simp [enter, hname.1.1, hname.1.2, hname.2]
      split at h
      · cases h
      · rename_i hfree
        exact ⟨mid, place, name, hdirs, hparts, henter, hfree, (Option.some.inj h).symm⟩
  · cases h

theorem write_wrote {disk disk' : Disk} {path : String} {text : Option String}
    (htree : IsTree disk) (h : disk.write path text = some disk') :
    Wrote disk path text disk' := by
  obtain ⟨mid, place, name, hdirs, hparts, henter, hfree, rfl⟩ := write_eq_some h
  have hopened := makeDirs_opened htree (htree.start path) hdirs
  have hplace : disk.placeOf path = place ++ [name] := by
    rw [placeOf, hparts, List.foldl_append, ← hopened.found_eq, List.foldl_cons,
      List.foldl_nil, henter]
  have hne : place ++ [name] ≠ [] := by simp
  have hparent : mid.nodeAt (place ++ [name]).dropLast = some .directory := by
    simpa using hopened.directory
  have hput := grows_put hne hfree (.file text)
  have hgrows := hopened.grows.trans hput
  refine ⟨hopened.tree.put hne hfree _ hparent, hgrows, ?_, ?_, ?_⟩
  · intro other hother text' hfile
    rw [nodeAt_put mid hne, if_neg (hplace ▸ hother)]
    exact hopened.keeps other text' hfile
  · rw [hplace, nodeAt_put mid hne, if_pos rfl]
  · have hfollow := hput.follow hopened.follow
    show Disk.follow _ (startOf _ path) _ = _
    rw [hgrows.startOf, hparts, follow_append hfollow,
      follow_cons (hput.directory _ hopened.directory), henter, hplace]
    rfl

/-- A file that was written is read back. -/
theorem Wrote.read {disk disk' after : Disk} {path text : String}
    (h : Wrote disk path (some text) disk') (hgrows : Grows disk' after)
    (hkeeps : KeepsFile (disk.placeOf path) disk' after) : after.read path = .ok text := by
  have hlocated : disk'.follow (disk'.startOf path) (partsOf path) = .ok (disk.placeOf path) :=
    h.locate
  have hlocate : after.locate path = .ok (disk.placeOf path) := by
    show after.follow (after.startOf path) (partsOf path) = _
    rw [hgrows.startOf]
    exact hgrows.follow hlocated
  rw [Disk.read, hlocate]
  simp only [hkeeps _ h.file]

end Disk

/-! ## Pages -/

open Disk

variable {disk : Disk} {pages : List (String × JsonValue)}

/-- Pages that are all written: the first one is, and then the others. -/
theorem writePages_cons {path : String} {page : JsonValue}
    (h : (writePages disk ((path, page) :: pages)).failure? = none) : ∃ disk',
      disk.write path (some page.render) = some disk' ∧ (writePages disk' pages).failure? = none ∧
      writePages disk ((path, page) :: pages) =
        { writePages disk' pages with written := path :: (writePages disk' pages).written } := by
  rw [writePages] at h ⊢
  cases hwrite : disk.write path (some page.render) with
  | none =>
    rw [hwrite] at h
    cases h
  | some disk' =>
    rw [hwrite] at h
    exact ⟨disk', rfl, h, rfl⟩

theorem written_eq (h : (writePages disk pages).failure? = none) :
    (writePages disk pages).written = pages.map Prod.fst := by
  induction pages generalizing disk with
  | nil => rfl
  | cons page pages ih =>
    obtain ⟨disk', -, hrest, hpages⟩ := writePages_cons h
    rw [hpages, List.map_cons, ih hrest]

/-- If nothing fails, the files written are those of the pages, in order. -/
theorem written_of_result {written : List String}
    (h : (writePages disk pages).result = .ok written) :
    (writePages disk pages).failure? = none ∧ written = pages.map Prod.fst := by
  unfold Writing.result at h
  cases hfailure : (writePages disk pages).failure? with
  | some failure =>
    rw [hfailure] at h
    cases h
  | none =>
    rw [hfailure] at h
    exact ⟨rfl, (Except.ok.inj h).symm.trans (written_eq hfailure)⟩

/-- Writing pages leaves the directories there, and the files at places of no page. -/
theorem writePages_keeps (htree : IsTree disk) (h : (writePages disk pages).failure? = none) :
    Grows disk (writePages disk pages).disk ∧
      ∀ place, (∀ page ∈ pages, disk.placeOf page.1 ≠ place) →
        KeepsFile place disk (writePages disk pages).disk := by
  induction pages generalizing disk with
  | nil => exact ⟨.refl _, fun _ _ _ h => h⟩
  | cons page pages ih =>
    obtain ⟨disk', hwrite, hrest, hpages⟩ := writePages_cons h
    have hwrote := write_wrote htree hwrite
    obtain ⟨hgrows, hkeeps⟩ := ih hwrote.tree hrest
    rw [hpages]
    refine ⟨hwrote.grows.trans hgrows, fun place hplace => ?_⟩
    obtain ⟨hpage, hplaces⟩ := List.forall_mem_cons.mp hplace
    intro text hfile
    refine hkeeps place (fun other hother => ?_) text (hwrote.keeps place hpage.symm text hfile)
    rw [hwrote.grows.placeOf]
    exact hplaces other hother

/-- **A page is read back if no later one has its place.** -/
theorem read_writePages {before later : List (String × JsonValue)} {path : String}
    {page : JsonValue} (htree : IsTree disk)
    (h : (writePages disk (before ++ (path, page) :: later)).failure? = none)
    (hlater : ∀ other ∈ later, disk.placeOf other.1 ≠ disk.placeOf path) :
    (writePages disk (before ++ (path, page) :: later)).disk.read path = .ok page.render := by
  induction before generalizing disk with
  | nil =>
    obtain ⟨disk', hwrite, hrest, hpages⟩ := writePages_cons h
    have hwrote := write_wrote htree hwrite
    obtain ⟨hgrows, hkeeps⟩ := writePages_keeps hwrote.tree hrest
    rw [List.nil_append, hpages]
    refine hwrote.read hgrows (hkeeps _ fun other hother => ?_)
    rw [hwrote.grows.placeOf]
    exact hlater other hother
  | cons first before ih =>
    rw [List.cons_append] at h ⊢
    obtain ⟨disk', hwrite, hrest, hpages⟩ := writePages_cons h
    have hwrote := write_wrote htree hwrite
    rw [hpages]
    refine ih hwrote.tree hrest fun other hother => ?_
    rw [hwrote.grows.placeOf, hwrote.grows.placeOf]
    exact hlater other hother

end ClassDocs

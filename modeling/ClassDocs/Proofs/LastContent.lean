import ClassDocs.Proofs.Provenance
import ClassDocs.Proofs.Reindex

/-!
# The table holds what the files said last

Adding a file again can lose a class that another file still declares. It never leaves anything
behind: a class of the table is always the last one of its name in the last content of its own file
(`entry_of_last_content`), however many files share the name and in whatever order they are added
again.

Classes are taken out by name, whoever declared them, so what another file loses is of no concern
here. What matters is that a file's own classes go before its new ones come. They do, because the
names recorded for the file are those of the content it had until then, and each class that is
still there from that content is among them.
-/

namespace ClassDocs.Index

/-- The index `ix` after adding some files, given by path and content, one after the other. -/
def addAllTo (ix : Index) (calls : List (String × String)) : Index :=
  calls.foldl (fun ix call => ix.add call.1 call.2) ix

/-- A class is the last one of its name in the last content of its file. -/
def Latest (parser : Source.Parser) (calls : List (String × String)) (c : ClassDecl) : Prop :=
  ∃ content, latest? calls c.file = some content ∧ ∃ before after,
    parser.classes c.file content = before ++ c :: after ∧
      ∀ d ∈ after, Text.sameName d.name c.name = false

/-! ## Adding files without looking at the project -/

variable {parser : Source.Parser}

theorem addAllTo_snoc (ix : Index) (calls : List (String × String)) (call : String × String) :
    addAllTo ix (calls ++ [call]) = (addAllTo ix calls).add call.1 call.2 := by
  simp [addAllTo]

/-- The project of an index makes no difference to what is added. -/
theorem addAllTo_project (parser : Source.Parser) (project : Option Project)
    (calls : List (String × String)) :
    addAllTo { parser, project } calls = { addAll parser calls with project } := by
  induction calls using List.reverseRecOn with
  | nil => rfl
  | append_singleton calls call ih =>
    rw [addAllTo_snoc, ih, addAll_snoc]
    simp only [add, addDecls]

theorem filed_addAll (parser : Source.Parser) (calls : List (String × String)) :
    Filed (addAll parser calls).classes := by
  induction calls using List.reverseRecOn with
  | nil =>
    refine ⟨List.nodup_nil, ?_, ?_, ?_, ?_⟩ <;> intro k c hc <;> simp [addAll] at hc
  | append_singleton calls call ih =>
    rw [addAll_snoc]
    exact filed_add ih call.1 call.2

/-! ## Nothing is left behind -/

theorem key_of_mem_classes {file content : String} {c : ClassDecl}
    (h : c ∈ parser.classes file content) :
    key c.name = Text.lower c.name := by
  rw [key, Source.unrooted_of_plain (Source.name_qualified h).head]

/-- What is found under a key among the classes of a file, searched from the end, is the latest
once the file is added. -/
theorem latest_of_find? {calls : List (String × String)} {file content k : String} {c : ClassDecl}
    (h : ((parser.classes file content).reverse.find? fun d => key d.name == k) = some c) :
    Latest parser (calls ++ [(file, content)]) c := by
  obtain ⟨hkey, after, before, hsplit, hafter⟩ := List.find?_eq_some_iff_append.mp h
  have hclasses : parser.classes file content = before.reverse ++ c :: after.reverse := by
    rw [← List.reverse_reverse (parser.classes file content), hsplit]
    simp
  have hc : c ∈ parser.classes file content := by simp [hclasses]
  obtain rfl := Source.file_of_mem_classes hc
  refine ⟨content, by simp [latest?_snoc], before.reverse, after.reverse, hclasses, fun d hd => ?_⟩
  have hd' : d ∈ parser.classes c.file content := by
    rw [hclasses]
    exact List.mem_append_right _ (List.mem_cons_of_mem _ hd)
  have hne := hafter d (List.mem_reverse.mp hd)
  rw [← beq_iff_eq.mp hkey, key_of_mem_classes hc, key_of_mem_classes hd'] at hne
  simpa [Text.sameName] using hne

/-- A class is recorded under its file as long as the file's last content has it. -/
theorem Latest.recorded {calls : List (String × String)} {c : ClassDecl}
    (h : Latest parser calls c) :
    ∃ names, (addAll parser calls).files.find? c.file = some names ∧ c.name ∈ names := by
  obtain ⟨content, hlatest, before, after, hclasses, -⟩ := h
  refine ⟨(parser.classes c.file content).map (·.name), by rw [files_addAll, hlatest]; rfl, ?_⟩
  rw [hclasses]
  exact List.mem_map_of_mem (by simp)

/-- A class stays the latest when another file is added. -/
theorem Latest.snoc {calls : List (String × String)} {c : ClassDecl} (h : Latest parser calls c)
    {call : String × String} (hfile : call.1 ≠ c.file) : Latest parser (calls ++ [call]) c := by
  obtain ⟨content, hlatest, hlast⟩ := h
  exact ⟨content, by rw [latest?_snoc, if_neg (by simpa using hfile), hlatest], hlast⟩

/-- **One more file**: the table holds its classes, and of the others only those of other files. -/
theorem latest_step {calls : List (String × String)}
    (ih : ∀ k c, (addAll parser calls).classes.find? k = some c → Latest parser calls c)
    (call : String × String) {k : String} {c : ClassDecl}
    (h : (addAll parser (calls ++ [call])).classes.find? k = some c) :
    Latest parser (calls ++ [call]) c := by
  rw [addAll_snoc, add, parser_addAll, find?_addDecls, Option.or_eq_some_iff] at h
  rcases h with hnew | ⟨-, hold⟩
  · exact latest_of_find? hnew
  · split at hold
    · cases hold
    · rename_i htaken
      have hlatest := ih k c hold
      refine hlatest.snoc fun hfile => htaken ?_
      -- a class of the file itself would be among the names recorded for it
      obtain ⟨names, hnames, hname⟩ := hlatest.recorded
      have hkey : key c.name = k := (filed_addAll parser calls).key_name k c hold
      rw [List.contains_iff_mem, hfile, hnames, ← hkey]
      exact List.mem_map_of_mem hname

theorem latest_addAll (parser : Source.Parser) (calls : List (String × String)) :
    ∀ k c, (addAll parser calls).classes.find? k = some c → Latest parser calls c := by
  induction calls using List.reverseRecOn with
  | nil => intro k c h; simp [addAll] at h
  | append_singleton calls call ih => exact fun k c h => latest_step ih call h

/-- Nothing in the table is out of date. After any history of files, each entry stands under its
name in lower case, its file is recorded with that name, and it is the last class of its name in
the last content of its file. -/
theorem entry_of_last_content (parser : Source.Parser) (project : Option Project)
    (calls : List (String × String)) {k : String} {c : ClassDecl}
    (h : (k, c) ∈ (addAllTo { parser, project } calls).classes.entries) :
    k = Text.lower c.name ∧
      (∃ names, (addAllTo { parser, project } calls).files.find? c.file = some names ∧
        c.name ∈ names) ∧
      ∃ content, latest? calls c.file = some content ∧ ∃ before after,
        parser.classes c.file content = before ++ c :: after ∧
          ∀ d ∈ after, Text.sameName d.name c.name = false := by
  rw [addAllTo_project] at h ⊢
  have hfiled := filed_addAll parser calls
  have hfind : (addAll parser calls).classes.find? k = some c := Table.find?_of_mem hfiled.nodup h
  have hlatest := latest_addAll parser calls k c hfind
  refine ⟨?_, hlatest.recorded, hlatest⟩
  rw [← hfiled.key_name k c hfind, key, Source.unrooted_of_plain (hfiled.qualified k c hfind).head]

/-- Two files declare one class, the first is added again without it and so withdraws it, and the
second brings it back in two spellings, of which the later one counts. -/
theorem entry_of_last_content_shared :
    let calls := [("a.php", "<?php class Foo {}"), ("b.php", "<?php class Foo {}"),
      ("a.php", "<?php class Bar {}"), ("b.php", "<?php class foo {} class FOO {}")]
    ∃ c, ("foo", c) ∈ (addAllTo { project := none } calls).classes.entries ∧
      "foo" = Text.lower c.name ∧
      (∃ names, (addAllTo { project := none } calls).files.find? c.file = some names ∧
        c.name ∈ names) ∧
      ∃ content, latest? calls c.file = some content ∧ ∃ before after,
        Source.classes c.file content = before ++ c :: after ∧
            ∀ d ∈ after, Text.sameName d.name c.name = false := by
  intro calls
  have hkey : "foo" ∈ (addAllTo { project := none } calls).classes.keys := by decide +kernel
  obtain ⟨⟨k, c⟩, hmem, rfl⟩ := List.mem_map.mp hkey
  exact ⟨c, hmem, entry_of_last_content Source.reader none calls hmem⟩

end ClassDocs.Index

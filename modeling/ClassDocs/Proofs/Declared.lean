import ClassDocs.Index.Flatten
import ClassDocs.Source.Declaration
import ClassDocs.Proofs.Segments

/-!
# What a declaration read from a source looks like

Three facts about every class that comes out of a source file, whatever its text. A trait has no
ancestors (`ancestors_of_trait`). Its name is a qualified one (`name_qualified`). And the name of a
parent has no backslash in front (`parent_plain`), so that its key in the index is the name in
lower case.

The last two go back to the characters. A name token starts with a letter, or with one backslash
and a letter; every name in a class header, a namespace statement or an import is the text of such
a token; and resolving a name in the scope of the file only ever puts a namespace or an imported
name in front.
-/

namespace ClassDocs.Source

/-- The name starts with a character that is not a backslash. -/
def Plain (s : String) : Prop := ∃ c rest, s.toList = c :: rest ∧ c ≠ '\\'

/-! ## Resolving names -/

theorem NameText.segment {s : String} (h : NameText s) (hs : '\\' ∉ s.toList) : Segment s := by
  obtain ⟨c, cs, hc, htext | htext⟩ := h
  · exact (qualified_of_start hc htext).segment hs
  · exact absurd (htext ▸ List.mem_cons_self) hs

theorem Plain.append {s : String} (h : Plain s) (t : String) : Plain (s ++ t) := by
  obtain ⟨c, rest, hs, hc⟩ := h
  exact ⟨c, rest ++ t.toList, by simp [hs], hc⟩

/-- A name is plain without its backslash, or as it is. -/
theorem NameText.cases {s : String} (h : NameText s) :
    (∃ rest, s.toList = '\\' :: rest ∧ Plain (.ofList rest)) ∨ Plain s := by
  obtain ⟨c, cs, hc, hs | hs⟩ := h
  · exact Or.inr ⟨c, _, hs, not_nameStart_backslash hc⟩
  · exact Or.inl ⟨_, hs, c, nameTail cs, by simp, not_nameStart_backslash hc⟩

theorem unrooted_of_plain {s : String} (h : Plain s) : Name.unrooted s = s := by
  obtain ⟨c, rest, hs, hc⟩ := h
  unfold Name.unrooted
  split
  · rename_i heq
    rw [hs] at heq
    exact absurd (List.cons.inj heq).1 hc
  · rfl

theorem unrooted_of_rooted {s : String} {rest : List Char} (h : s.toList = '\\' :: rest) :
    Name.unrooted s = .ofList rest := by
  unfold Name.unrooted
  split
  · rename_i heq
    rw [h] at heq
    rw [(List.cons.inj heq).2]
  · rename_i hne
    exact absurd h (hne rest)

theorem NameText.plain_unrooted {s : String} (h : NameText s) : Plain (Name.unrooted s) := by
  rcases h.cases with ⟨rest, hs, hplain⟩ | hplain
  · rw [unrooted_of_rooted hs]; exact hplain
  · rw [unrooted_of_plain hplain]; exact hplain

/-- The text of a name token is a qualified name without the backslash in front. -/
theorem NameText.qualified_bare {s : String} (h : NameText s) : Qualified (Name.bare s) := by
  obtain ⟨c, cs, hc, hs | hs⟩ := h
  · have hq := qualified_of_start hc hs
    rwa [hq.bare]
  · have hq : Qualified (.ofList (c :: nameTail cs)) := qualified_of_start hc String.toList_ofList
    have hbare : Name.bare s = Name.bare (.ofList (c :: nameTail cs)) := by
      simp [Name.bare, Text.stripText, Text.stripWhile, hs]
    rwa [hbare, hq.bare]

/-- The namespace of some declarations is a qualified name. -/
theorem spaceName_qualified {name : Option String} (hn : ∀ s, name = some s → NameText s)
    {space : String} (h : spaceName name = some space) : Qualified space := by
  obtain ⟨hmap, -⟩ := Option.filter_eq_some_iff.mp h
  obtain ⟨written, hw, rfl⟩ := Option.map_eq_some_iff.mp hmap
  exact (hn written hw).qualified_bare

/-- What a scope puts in front of names is plain. -/
structure ScopeSound (scope : Scope) : Prop where
  space : ∀ s, scope.space = some s → Qualified s
  imports : ∀ k full, scope.imports.find? k = some full → Plain full

theorem resolve_plain {scope : Scope} (hs : ScopeSound scope) {written : String}
    (hw : NameText written) :
    Plain (scope.resolve written) := by
  unfold Scope.resolve
  rcases hw.cases with ⟨rest, hw, hplain⟩ | hplain
  · split
    · rename_i heq
      rw [hw] at heq
      rw [← (List.cons.inj heq).2]
      exact hplain
    · rename_i hne
      exact absurd hw (hne rest)
  · split
    · rename_i heq
      obtain ⟨c, tail, hc, hne⟩ := hplain
      rw [hc] at heq
      exact absurd (List.cons.inj heq).1 hne
    · dsimp only
      split
      · rename_i full rest hfull _
        exact ((hs.imports _ _ hfull).append _).append _
      · rename_i full hfull _
        exact hs.imports _ _ hfull
      · split
        · rename_i space hspace
          exact (Plain.append (hs.space space hspace).head _).append _
        · exact hplain

theorem fullName_plain {base : Option String} (hb : ∀ s, base = some s → NameText s)
    {item : UseItem} (hi : NameText item.name) : Plain (item.fullName base) := by
  unfold UseItem.fullName
  cases base with
  | none => exact hi.plain_unrooted
  | some b => exact (Plain.append (hb b rfl).qualified_bare.head _).append _

theorem find?_ofList {α : Type} {P : α → Prop} (entries : List (String × α))
    (h : ∀ e ∈ entries, P e.2) :
    ∀ k v, (Table.ofList entries).find? k = some v → P v := by
  have hfold : ∀ (entries : List (String × α)) (t : Table α), (∀ e ∈ entries, P e.2) →
      (∀ k v, t.find? k = some v → P v) →
      ∀ k v, (entries.foldl (fun t e => t.insert e.1 e.2) t).find? k = some v → P v := by
    intro entries
    induction entries with
    | nil => intro t _ ht; exact ht
    | cons e entries ih =>
      intro t he ht
      obtain ⟨he, hes⟩ := List.forall_mem_cons.mp he
      refine ih _ hes ?_
      intro k v hv
      rw [Table.find?_insert] at hv
      split at hv
      · obtain rfl := Option.some.inj hv; exact he
      · exact ht k v hv
  exact hfold entries {} h (by intro k v hv; simp at hv)

theorem scopeOf_sound {space : Option String} (hs : ∀ s, space = some s → Qualified s)
    {nodes : List TopNode} (hn : ∀ n ∈ nodes, n.Sound) : ScopeSound (scopeOf space nodes) where
  space := hs
  imports := by
    refine find?_ofList _ ?_
    intro e he
    obtain ⟨use, huse, he⟩ := List.mem_flatMap.mp he
    obtain ⟨node, hnode, hread⟩ := List.mem_filterMap.mp huse
    cases node with
    | decl node => simp at hread
    | use statement =>
      obtain rfl : statement = use := by simpa using hread
      cases hn _ hnode with
      | use hsound =>
        unfold UseStatement.entries at he
        split at he
        · simp at he
        · obtain ⟨item, hitem, rfl⟩ := List.mem_map.mp he
          exact fullName_plain hsound.base (hsound.items item (List.mem_filter.mp hitem).1)

/-! ## Declarations -/

/-- Every class of a file is the declaration of a class header, in a scope, all made of name
tokens. -/
theorem mem_classes {parser : Parser} {path content : String} {c : ClassDecl}
    (h : c ∈ parser.classes path content) :
    ∃ file scope node, c = classOf file scope node ∧ ScopeSound scope ∧ node.Sound := by
  have hnodes := parser.sound content.toList
  have hof : ∀ {file : File} {scope : Scope} {nodes : List TopNode}, ScopeSound scope →
      (∀ n ∈ nodes, n.Sound) → c ∈ classesOf file scope nodes →
      ∃ file scope node, c = classOf file scope node ∧ ScopeSound scope ∧ node.Sound := by
    intro file scope nodes hs hn hc
    obtain ⟨node, hnode, hread⟩ := List.mem_filterMap.mp hc
    cases node with
    | use statement => simp at hread
    | decl node =>
      obtain rfl := Option.some.inj hread
      cases hn _ hnode with
      | decl hsound => exact ⟨file, scope, node, rfl, hs, hsound⟩
  obtain ⟨node, hnode, hc⟩ := List.mem_flatMap.mp h
  cases node with
  | top node =>
    refine hof (scopeOf_sound (by simp) ?_) ?_ hc
    · intro n hn
      obtain ⟨fileNode, hmem, hread⟩ := List.mem_filterMap.mp hn
      cases fileNode with
      | top top =>
        obtain rfl : top = n := by simpa using hread
        cases hnodes _ hmem with
        | top hsound => exact hsound
      | space space => simp at hread
    · intro n hn
      obtain rfl : n = node := by simpa using hn
      cases hnodes _ hnode with
      | top hsound => exact hsound
  | space node =>
    cases hnodes _ hnode with
    | space hname hbody =>
      exact hof (scopeOf_sound (fun s hs => spaceName_qualified hname hs) hbody) hbody hc

/-- Every class of a file notes the path of that file. -/
theorem file_of_mem_classes {parser : Parser} {path content : String} {c : ClassDecl}
    (h : c ∈ parser.classes path content) : c.file = path := by
  obtain ⟨node, -, hc⟩ := List.mem_flatMap.mp h
  cases node with
  | top node | space node =>
    obtain ⟨n, -, hread⟩ := List.mem_filterMap.mp hc
    cases n with
    | use statement => cases hread
    | decl node =>
      obtain rfl := Option.some.inj hread
      rfl

theorem word_of_trait {scope : Scope} {node : ClassNode} (h : kindOf scope node = .trait) :
    node.word = .trait := by
  unfold kindOf at h
  cases hw : node.word with
  | trait => rfl
  | ordinary =>
    simp only [hw] at h
    split at h <;> cases h
  | interface => simp only [hw] at h; cases h
  | enum => simp only [hw] at h; cases h

/-- **A trait of a file has no ancestors.** -/
theorem ancestors_of_trait {parser : Parser} {path content : String} {c : ClassDecl}
    (h : c ∈ parser.classes path content)
    (hk : c.kind = .trait) : c.ancestors = [] := by
  obtain ⟨file, scope, node, rfl, -⟩ := mem_classes h
  have hword : node.word = .trait := word_of_trait hk
  have hparent : (classOf file scope node).parent = none := by
    simp only [classOf, hword]
    rfl
  have hinterfaces : (classOf file scope node).interfaces = [] := by
    simp only [classOf, hword]
  rw [ClassDecl.ancestors, hparent, hinterfaces]
  rfl

/-- **The name of a class of a file is a qualified name.** -/
theorem name_qualified {parser : Parser} {path content : String} {c : ClassDecl}
    (h : c ∈ parser.classes path content) : Qualified c.name := by
  obtain ⟨file, scope, node, rfl, hscope, hnode⟩ := mem_classes h
  have hname : (classOf file scope node).name = qualify scope node.name := by simp only [classOf]
  rw [hname, qualify]
  split
  · rename_i space hspace
    exact (hscope.space space hspace).append (hnode.name.1.segment hnode.name.2).qualified
  · exact (hnode.name.1.segment hnode.name.2).qualified

/-- **The parent of a class of a file is a plain name.** -/
theorem parent_plain {parser : Parser} {path content : String} {c : ClassDecl}
    (h : c ∈ parser.classes path content) {p : String}
    (hp : c.parent = some p) : Plain p := by
  obtain ⟨file, scope, node, rfl, hscope, hnode⟩ := mem_classes h
  simp only [classOf] at hp
  split at hp
  · obtain ⟨written, hw, rfl⟩ := Option.map_eq_some_iff.mp hp
    exact resolve_plain hscope (hnode.parents written (List.mem_of_head? hw))
  · simp at hp

end ClassDocs.Source

import ClassDocs.Proofs.TreeSpans

/-!
# Where the items of a class stand

An item of a class is a constant, a property or an enum case. What a parser says about the place of
an item is its stretch and, of its initial value, the equals sign and the stretch of the
expression. `MemberNode.Spanned` says what is expected of these: the initial value lies inside the
stretch of its item, and the stretch of a constant or property ends with it, or with the name if
there is none. Everything the reader finds is of this kind (`reader_spanned`).
-/

namespace ClassDocs.Source

open ClassDocs.Text

/-! ## What a parser says about places -/

/-- The equals sign and the expression of an initial value stand in this order inside a stretch of
the source. -/
structure InitialNode.Inside (content : List Char) (s : Stretch) (i : InitialNode) : Prop where
  start_le : s.start ≤ i.equals
  equals_lt : i.equals < i.value.start
  value_le : i.value.start ≤ i.value.stop
  stop_le : i.value.stop ≤ s.stop
  cuts : ∀ n ∈ [s.start, i.equals, i.equals + 1, i.value.start, i.value.stop], IsCut content n
  sign : slice i.equals (i.equals + 1) content = ['=']

/-- The stretch of an item runs from its name, with a mark in front of it, to its initial value. -/
structure ItemNode.FromName (content mark : List Char) (item : ItemNode) : Prop where
  name : '=' ∉ item.name.toList
  /-- Without an initial value there is only the name. -/
  alone : item.initial = none →
    slice item.stretch.start item.stretch.stop content = mark ++ item.name.toList
  valued : ∀ i, item.initial = some i →
    i.Inside content item.stretch ∧ item.stretch.stop = i.value.stop

/-- Constants and properties run from their name to their initial value. An enum case runs from its
attributes to the end of its statement, with the initial value in between. -/
def MemberNode.Spanned (content : List Char) : MemberNode → Prop
  | .constants _ _ _ items => ∀ item ∈ items, item.FromName content []
  | .properties _ _ _ items => ∀ item ∈ items, item.FromName content ['$']
  | .enumCase item => ∀ i, item.initial = some i → i.Inside content item.stretch
  | .method _ _ _ _ _ | .traitUse _ => True

/-- The class that a declaration declares. -/
def TopNode.class? : TopNode → Option ClassNode
  | .use _ => none
  | .decl node => some node

/-- The classes in a part of a file. -/
def FileNode.classNodes : FileNode → List ClassNode
  | .top node => node.class?.toList
  | .space node => node.body.filterMap TopNode.class?

/-- The classes that a parser finds in a source. -/
def Parsed.classNodes (parsed : Parsed) : List ClassNode :=
  parsed.nodes.flatMap FileNode.classNodes

/-! ## What is left of the trees of a member -/

section Hints

variable {depth : Nat}
  (hread : ∀ ts hint rest, Hint.read? depth ts = some (hint, rest) → rest <:+ ts)
  (hone : ∀ ts hint rest, Hint.readOne? depth ts = some (hint, rest) → rest <:+ ts)

include hread hone in
theorem isSuffix_read?_succ (ts : List Tree) (hint : Hint) (rest : List Tree)
    (h : Hint.read? (depth + 1) ts = some (hint, rest)) : rest <:+ ts := by
  rw [Hint.read?] at h
  split at h
  · cases h
  · rename_i left t tail hleft
    have hsuf := hone ts left _ hleft
    have hjoin : ∀ f : Hint × List Tree → Hint × List Tree,
        (Hint.read? depth tail).map f = some (hint, rest) → (∀ p, (f p).2 = p.2) →
            rest <:+ ts := by
      intro f hmap hf
      obtain ⟨⟨right, rest'⟩, hright, heq⟩ := Option.map_eq_some_iff.mp hmap
      have hrest := hf (right, rest')
      rw [heq] at hrest
      obtain rfl : rest = rest' := hrest
      exact ((hread tail right rest hright).trans (List.suffix_cons t tail)).trans hsuf
    rcases then_or_else h with ⟨-, h⟩ | ⟨-, h⟩
    · exact hjoin _ h fun _ => rfl
    rcases then_or_else h with ⟨-, h⟩ | ⟨-, h⟩
    · exact hjoin _ h fun _ => rfl
    · cases h
      exact hsuf
  · rename_i hleft
    cases h
    exact hone ts _ _ hleft

include hone in
theorem isSuffix_readOne?_succ (ts : List Tree) (hint : Hint) (rest : List Tree)
    (h : Hint.readOne? (depth + 1) ts = some (hint, rest)) : rest <:+ ts := by
  cases ts with
  | nil =>
    rw [Hint.readOne?] at h
    · cases h
    · exact fun hzero => nomatch hzero
  | cons t tail =>
    rw [Hint.readOne?] at h
    rcases then_or_else h with ⟨-, h⟩ | ⟨-, h⟩
    · obtain ⟨⟨inner, rest'⟩, hinner, heq⟩ := Option.map_eq_some_iff.mp h
      cases heq
      exact (hone tail inner rest hinner).trans (List.suffix_cons t tail)
    rcases then_or_else h with ⟨-, h⟩ | ⟨-, h⟩
    · split at h
      · cases h
        exact List.suffix_cons t _
      · cases h
    · obtain ⟨text, -, heq⟩ := Option.map_eq_some_iff.mp h
      cases heq
      exact List.suffix_cons t _

end Hints

theorem isSuffix_read (depth : Nat) :
    (∀ ts hint rest, Hint.read? depth ts = some (hint, rest) → rest <:+ ts) ∧
      ∀ ts hint rest, Hint.readOne? depth ts = some (hint, rest) → rest <:+ ts := by
  induction depth with
  | zero =>
    refine ⟨fun ts hint rest h => ?_, fun ts hint rest h => ?_⟩
    · rw [Hint.read?] at h
      cases h
    · rw [Hint.readOne?] at h
      cases h
  | succ depth ih => exact ⟨isSuffix_read?_succ ih.1 ih.2, isSuffix_readOne?_succ ih.2⟩

theorem isSuffix_take (ts : List Tree) : (Hint.take ts).2 <:+ ts := by
  unfold Hint.take
  split
  · rename_i hint rest hread
    exact (isSuffix_read _).1 ts hint rest hread
  · exact List.suffix_rfl

theorem isSuffix_takeHint (ts : List Tree) : (takeHint ts).2 <:+ ts := by
  unfold takeHint
  split
  · split
    · exact List.suffix_rfl
    · exact isSuffix_take ts
  · exact List.suffix_rfl

theorem isSuffix_takeConstantHint (ts : List Tree) : (takeConstantHint ts).2 <:+ ts := by
  unfold takeConstantHint
  split
  · split
    · exact List.suffix_rfl
    · exact isSuffix_take _
  · exact List.suffix_rfl

/-! ## Initial values -/

theorem isSign_of_dropWhile {sign : String} {ts after : List Tree} {t : Tree}
    (h : ts.dropWhile (!·.isSign sign) = t :: after) : t.isSign sign = true := by
  have hhead := List.head?_dropWhile_not (fun t : Tree => !t.isSign sign) ts
  rw [h] at hhead
  simpa using hhead

/-- The initial value among some trees lies inside them. -/
theorem inside_of_initialIn {content : List Char} {a b : Nat} {ts : List Tree} {i : InitialNode}
    (h : Tidy content a b ts) (hi : initialIn ts = some i) :
    i.Inside content ⟨startOf ts, stopOf ts⟩ := by
  unfold initialIn at hi
  split at hi
  · cases hi
  · rename_i eq after hdrop
    split at hi
    · cases hi
    · rename_i t us htake
      obtain rfl := Option.some.inj hi
      have hsign := isSign_of_dropWhile hdrop
      obtain ⟨front, rfl⟩ : ∃ front, ts = front ++ eq :: after :=
        ⟨_, by rw [← hdrop]; exact List.takeWhile_append_dropWhile.symm⟩
      obtain ⟨rest, rfl⟩ : ∃ rest, after = t :: us ++ rest :=
        ⟨_, by rw [← htake]; exact List.takeWhile_append_dropWhile.symm⟩
      obtain ⟨last, hlast, hstop⟩ := exists_stopOf (List.cons_ne_nil t us)
      have heq : eq ∈ front ++ eq :: (t :: us ++ rest) := by simp
      have hend : last ∈ front ++ eq :: (t :: us ++ rest) := by
        rw [List.mem_append, List.mem_cons, List.mem_append]
        exact .inr (.inr (.inl hlast))
      obtain ⟨m, -, htail⟩ := h.split
      obtain ⟨-, hone, hafter⟩ := htail.uncons
      obtain ⟨hgap, hfirst, -⟩ := hafter.uncons
      have hvalue : Tidy content eq.stop b (t :: us) :=
        hafter.sublist (List.sublist_append_left _ _)
      have hwidth : eq.stop = eq.start + 1 := hone.stop_sign hsign
      rw [hwidth] at hgap
      refine ⟨h.startOf_le heq, hgap, ?_, hstop ▸ h.le_stopOf hend, ?_, ?_⟩
      · exact Nat.le_trans hfirst.le (hvalue.le_stopOf List.mem_cons_self)
      · simp only [List.forall_mem_cons]
        refine ⟨h.isCut_startOf (List.ne_nil_of_mem heq), hone.isCut_start, ?_, hfirst.isCut_start,
          hvalue.isCut_stopOf (List.cons_ne_nil t us), List.forall_mem_nil _⟩
        exact hwidth ▸ hone.isCut_stop
      · exact hwidth ▸ hone.slice_sign hsign

/-- Where no tree ends the statement, the initial value reaches to the end. -/
theorem stop_of_initialIn {ts : List Tree} (hends : ∀ t ∈ ts, t.isEnd = false) {i : InitialNode}
    (hi : initialIn ts = some i) : i.value.stop = stopOf ts := by
  unfold initialIn at hi
  split at hi
  · cases hi
  · rename_i eq after hdrop
    obtain ⟨front, rfl⟩ : ∃ front, ts = front ++ eq :: after :=
      ⟨_, by rw [← hdrop]; exact List.takeWhile_append_dropWhile.symm⟩
    have hall : after.takeWhile (!·.isEnd) = after := by
      have hpos : ∀ t ∈ after, (!t.isEnd) = true := fun t ht => by rw [hends t (by simp [ht])]; rfl
      have hwhole : (after ++ []).takeWhile (!·.isEnd) = after ++ [] :=
        List.takeWhile_append_of_pos hpos
      rwa [List.append_nil] at hwhole
    rw [hall] at hi
    cases after with
    | nil => cases hi
    | cons t us =>
      obtain rfl := Option.some.inj hi
      rw [stopOf, stopOf, List.getLast?_append, List.getLast?_cons_cons, List.getLast?_cons]
      rfl

/-! ## Items -/

theorem not_mem_nameTail (cs : List Char) : '=' ∉ nameTail cs := by
  have hchar : ∀ c, isNameChar c = true → '=' ≠ c := by
    rintro c hc rfl
    exact absurd hc (by decide)
  fun_induction nameTail cs with
  | case1 => exact List.not_mem_nil
  | case2 c cs hc ih =>
    have hc' := hchar c (by simp [isNameChar, hc])
    simp [ih, hc']
  | case3 => exact List.not_mem_nil
  | case4 c cs _ hc ih => simp [ih, hchar c hc]
  | case5 => exact List.not_mem_nil

theorem NameText.not_mem_equals {s : String} (h : NameText s) : '=' ∉ s.toList := by
  obtain ⟨c, cs, hc, hs⟩ := h
  have hne : '=' ≠ c := by
    rintro rfl
    exact absurd hc (by decide)
  rcases hs with hs | hs <;> simp [hs, hne, not_mem_nameTail]

/-- A way to name items: the name is the text of a tree without a mark in front of it. -/
def Names (mark : List Char) (name? : Tree → Option String) : Prop :=
  ∀ {content : List Char} {a b : Nat} {t : Tree} {name : String}, Tidy content a b [t] → t.Sound →
    name? t = some name →
      '=' ∉ name.toList ∧ slice t.start t.stop content = mark ++ name.toList

theorem names_name? : Names [] Tree.name? := by
  intro content a b t name htidy hsound hname
  refine ⟨(hsound.name hname).not_mem_equals, ?_⟩
  cases htidy with
  | leaf _ hplaced _ =>
    rcases then_or_else hname with ⟨-, hname⟩ | ⟨-, hname⟩
    · obtain rfl := Option.some.inj hname
      exact hplaced.slice_eq
    · cases hname
  | group _ _ _ _ _ => cases hname

theorem names_varName? : Names ['$'] Tree.varName? := by
  intro content a b t name htidy hsound hname
  cases htidy with
  | leaf _ hplaced _ =>
    rcases then_or_else hname with ⟨hkind, hname⟩ | ⟨-, hname⟩
    · obtain rfl := Option.some.inj hname
      cases hsound with
      | leaf hsound =>
        obtain ⟨cs, htext, hcs⟩ := hsound.dollar (beq_iff_eq.mp hkind)
        rw [htext, List.drop_succ_cons, List.drop_zero, String.toList_ofList]
        exact ⟨fun hmem => absurd (hcs _ hmem) (by decide), hplaced.slice_eq.trans htext⟩
    · cases hname
  | group _ _ _ _ _ => cases hname

theorem isEnd_of_mem_splitCommas {ts part : List Tree}
    (h : part ∈ splitCommas (ts.filter (!·.isEnd))) :
    ∀ t ∈ part, t.isEnd = false := by
  intro t ht
  have hmem := (sublist_of_mem_splitCommas part h).subset ht
  simpa using (List.mem_filter.mp hmem).2

/-- A list of constants or properties. -/
theorem readItems_fromName {content mark : List Char} {a b : Nat} {name? : Tree → Option String}
    {ts : List Tree} (hnames : Names mark name?) (h : Tidy content a b ts) (hsound : AllSound ts) :
    ∀ item ∈ readItems name? ts, item.FromName content mark := by
  intro item hitem
  obtain ⟨part, hpart, hread⟩ := List.mem_filterMap.mp hitem
  obtain ⟨t, ht, hread⟩ := Option.bind_eq_some_iff.mp hread
  obtain ⟨name, hname, rfl⟩ := Option.map_eq_some_iff.mp hread
  have hsub : part.Sublist ts := (sublist_of_mem_splitCommas part hpart).trans List.filter_sublist
  have htidy := h.sublist hsub
  have hmem : t ∈ part := List.mem_of_head? ht
  obtain ⟨hequals, htext⟩ := hnames (htidy.mem hmem) (hsound t (hsub.subset hmem)) hname
  refine ⟨hequals, fun hnone => ?_, fun i hi => ?_⟩
  · dsimp only at hnone ⊢
    rw [hnone]
    exact htext
  · dsimp only at hi ⊢
    have hstart : t.start = startOf part := by rw [startOf, ht]; rfl
    have hstop := stop_of_initialIn (isEnd_of_mem_splitCommas hpart) hi
    rw [hi, hstart, Option.map_some, Option.getD_some, hstop]
    exact ⟨inside_of_initialIn htidy hi, rfl⟩

/-! ## Members and classes -/

/-- The constants, properties and cases of a member stand where the reader says. -/
theorem readMember_spanned {content : List Char} {a b : Nat} {m : List Tree} {node : MemberNode}
    (h : Tidy content a b m) (hsound : AllSound m) (hnode : readMember? m = some node) :
    node.Spanned content := by
  have hdeclared :=
    (isSuffix_takeModifiers (m.dropWhile (·.isGroup "#["))).trans (List.dropWhile_suffix _)
  unfold readMember? takeTrees at hnode
  dsimp only at hnode
  split at hnode
  · cases hnode
  · rename_i t rest hmods
    rw [hmods] at hdeclared
    have hitems : ∀ {mark : List Char} {name? : Tree → Option String} {ts : List Tree},
        Names mark name? → ts <:+ t :: rest → ∀ item ∈ readItems name? ts,
            item.FromName content mark := by
      intro mark name? ts hnames hsuf
      have hsub := (hsuf.trans hdeclared).sublist
      exact readItems_fromName hnames (h.sublist hsub) (hsound.of_subset hsub.subset)
    split at hnode
    · cases hnode
      trivial
    · obtain ⟨n, -, hnode⟩ := Option.bind_eq_some_iff.mp hnode
      obtain ⟨name, -, rfl⟩ := Option.map_eq_some_iff.mp hnode
      exact fun i hi => inside_of_initialIn h hi
    · cases hnode
      exact hitems names_name? ((isSuffix_takeConstantHint rest).trans (List.suffix_cons t rest))
    · unfold readMethod? at hnode
      dsimp only at hnode
      split at hnode
      · obtain ⟨name, -, rfl⟩ := Option.map_eq_some_iff.mp hnode
        trivial
      · cases hnode
    · cases hnode
      refine hitems names_varName? ((isSuffix_takeHint _).trans ?_)
      split
      · exact List.suffix_cons t rest
      · exact List.suffix_rfl

/-- The members of a class are read from the blocks of its statement. -/
theorem members_of_readClass? {statement : List Tree} {node : ClassNode}
    (h : readClass? statement = some node) :
    ∃ body, body <:+ statement ∧
      node.members =
        (statements (joinBlocks false false [] (body.flatMap Tree.inner))).filterMap
          readMember? := by
  unfold readClass? takeTrees at h
  dsimp only at h
  split at h
  · rename_i t u rest hmods
    split at h
    · obtain rfl := Option.some.inj h
      have hsuf := (isSuffix_takeModifiers (statement.dropWhile (·.isGroup "#["))).trans
        (List.dropWhile_suffix _)
      rw [hmods] at hsuf
      refine ⟨_, ?_, rfl⟩
      exact (List.dropWhile_suffix _).trans
        ((List.suffix_cons u rest).trans ((List.suffix_cons t _).trans hsuf))
    · cases h
  · cases h

/-- Joining blocks to their expressions adds no tokens. -/
theorem joinBlocks_sound {inValue access : Bool} {held ts : List Tree} (hheld : AllSound held)
    (h : AllSound ts) :
    AllSound (joinBlocks inValue access held ts) := by
  have hreverse : ∀ {us : List Tree}, AllSound us → AllSound us.reverse :=
    fun hus t ht => hus t (List.mem_reverse.mp ht)
  have hone : ∀ {t : Tree}, t.Sound → AllSound [t] := fun ht => List.forall_mem_singleton.mpr ht
  fun_induction joinBlocks inValue access held ts with
  | case1 => exact hreverse hheld
  | case2 inValue access held t ts _ ih =>
    obtain ⟨ht, hts⟩ := List.forall_mem_cons.mp h
    exact List.forall_mem_append.mpr
      ⟨hreverse hheld, List.forall_mem_cons.mpr ⟨ht, ih (by simp [AllSound]) hts⟩⟩
  | case3 inValue access t ts _ head tail _ ih =>
    obtain ⟨ht, hts⟩ := List.forall_mem_cons.mp h
    refine List.forall_mem_cons.mpr ⟨.group ?_, ih (by simp [AllSound]) hts⟩
    exact List.forall_mem_append.mpr ⟨hreverse hheld, hone ht⟩
  | case4 inValue access t ts _ head tail _ ih =>
    obtain ⟨ht, hts⟩ := List.forall_mem_cons.mp h
    exact ih (List.forall_mem_cons.mpr ⟨ht, hheld⟩) hts
  | case5 inValue access t ts _ _ ih =>
    obtain ⟨ht, hts⟩ := List.forall_mem_cons.mp h
    exact ih (hone ht) hts
  | case6 inValue access t ts _ _ _ ih =>
    obtain ⟨ht, hts⟩ := List.forall_mem_cons.mp h
    exact List.forall_mem_cons.mpr ⟨.group (hone ht), ih hheld hts⟩
  | case7 inValue access t ts _ _ _ goesOn ih =>
    obtain ⟨ht, hts⟩ := List.forall_mem_cons.mp h
    exact List.forall_mem_cons.mpr ⟨ht, ih hheld hts⟩

/-- A class is read from a statement among some trees, or inside one of them. -/
def ReadFrom (ts : List Tree) (node : ClassNode) : Prop :=
  ∃ s, readClass? s = some node ∧ (s.Sublist ts ∨ ∃ u ∈ ts, s.Sublist u.inner)

theorem readClass?_of_readTop? {s : List Tree} {node : ClassNode}
    (h : readTop? s = some (.decl node)) :
    readClass? s = some node := by
  unfold readTop? at h
  split at h
  · rcases then_or_else h with ⟨-, h⟩ | ⟨-, h⟩
    · cases h
    · obtain ⟨node', hread, heq⟩ := Option.map_eq_some_iff.mp h
      cases heq
      exact hread
  · cases h

theorem mem_readTops {ts : List Tree} {node : ClassNode}
    (h : node ∈ (readTops ts).filterMap TopNode.class?) :
    ∃ s, readClass? s = some node ∧ s.Sublist ts := by
  obtain ⟨top, htop, hclass⟩ := List.mem_filterMap.mp h
  obtain ⟨s, hs, hread⟩ := List.mem_filterMap.mp htop
  cases top with
  | use statement => cases hclass
  | decl node' =>
    obtain rfl := Option.some.inj hclass
    exact ⟨s, readClass?_of_readTop? hread, sublist_of_mem_outermost hs⟩

theorem flatMap_map_top (nodes : List TopNode) :
    (nodes.map FileNode.top).flatMap FileNode.classNodes = nodes.filterMap TopNode.class? := by
  induction nodes with
  | nil => rfl
  | cons node nodes ih =>
    rw [List.map_cons, List.flatMap_cons, ih]
    cases node <;> rfl

/-- The classes in what is read so far. -/
def classNodesOf (after : List TopNode × List FileNode) : List ClassNode :=
  after.1.filterMap TopNode.class? ++ after.2.flatMap FileNode.classNodes

/-- One more statement adds the classes it declares. -/
theorem classNodesOf_addStatement {ts s : List Tree} (hs : s.Sublist ts)
    {after : List TopNode × List FileNode} (h : ∀ node ∈ classNodesOf after, ReadFrom ts node) :
    ∀ node ∈ classNodesOf (addStatement s after), ReadFrom ts node := by
  intro node hnode
  unfold addStatement at hnode
  split at hnode
  · exact h node hnode
  · rename_i name inner hspace
    obtain ⟨u, hu, rfl⟩ := exists_of_namespace? hspace
    rw [classNodesOf, List.flatMap_cons, List.flatMap_append, flatMap_map_top] at hnode
    rcases List.mem_append.mp (List.mem_append.mp hnode |>.resolve_left List.not_mem_nil)
      with hnode | hnode
    · obtain ⟨s', hread, hsub⟩ := mem_readTops hnode
      exact ⟨s', hread, .inr ⟨u, hs.subset hu, hsub⟩⟩
    · exact h node hnode
  · rw [classNodesOf, List.filterMap_append, List.append_assoc] at hnode
    rcases List.mem_append.mp hnode with hnode | hnode
    · obtain ⟨top, htop, hclass⟩ := List.mem_filterMap.mp hnode
      cases top with
      | use statement => cases hclass
      | decl node' =>
        obtain rfl := Option.some.inj hclass
        exact ⟨s, readClass?_of_readTop? (Option.mem_toList.mp htop), .inl hs⟩
    · exact h node hnode

theorem mem_readFile {ts : List Tree} :
    ∀ node ∈ (readFile ts).flatMap FileNode.classNodes, ReadFrom ts node := by
  have hfold : ∀ ss : List (List Tree), (∀ s ∈ ss, s.Sublist ts) →
      ∀ node ∈ classNodesOf (ss.foldr addStatement ([], [])), ReadFrom ts node := by
    intro ss
    induction ss with
    | nil => exact fun _ node hnode => absurd hnode List.not_mem_nil
    | cons s ss ih =>
      intro hss
      obtain ⟨hs, hss⟩ := List.forall_mem_cons.mp hss
      exact classNodesOf_addStatement hs (ih hss)
  have hread : (readFile ts).flatMap FileNode.classNodes =
      classNodesOf ((outermost 0 (statements ts)).foldr addStatement ([], [])) := by
    rw [readFile, List.flatMap_append, flatMap_map_top, classNodesOf]
  rw [hread]
  exact hfold _ fun s hs => sublist_of_mem_outermost hs

/-- **The items that the reader finds stand where it says**, in every source. -/
theorem reader_spanned (content : List Char) :
    ∀ node ∈ (reader.parse content).classNodes, ∀ m ∈ node.members, m.Spanned content := by
  intro node hnode m hm
  have htidy := trees_tidy content
  have hsound : AllSound (trees (tokensOf (pieces content))) :=
    trees_sound _ fun _ ht => tokensOf_sound ht
  obtain ⟨s, hread, hfrom⟩ := mem_readFile node hnode
  obtain ⟨hs, hss⟩ : Tidy content 0 (bytes content) s ∧ AllSound s := by
    rcases hfrom with hsub | ⟨u, hu, hsub⟩
    · exact ⟨htidy.sublist hsub, hsound.of_subset hsub.subset⟩
    · exact ⟨(htidy.mem hu).inner.sublist hsub, (hsound u hu).inner.of_subset hsub.subset⟩
  obtain ⟨body, hbody, hmembers⟩ := members_of_readClass? hread
  rw [hmembers] at hm
  obtain ⟨member, hmember, hnode⟩ := List.mem_filterMap.mp hm
  have hsub := sublist_of_mem_statements member hmember
  have hinner : Tidy content 0 (bytes content) (body.flatMap Tree.inner) :=
    (hs.sublist hbody.sublist).flatMap_inner
  have hinners : AllSound (body.flatMap Tree.inner) := by
    intro t ht
    obtain ⟨u, hu, ht⟩ := List.mem_flatMap.mp ht
    exact (hss u (hbody.subset hu)).inner t ht
  refine readMember_spanned ((joinBlocks_tidy hinner).sublist hsub) ?_ hnode
  exact (joinBlocks_sound (List.forall_mem_nil _) hinners).of_subset hsub.subset

end ClassDocs.Source

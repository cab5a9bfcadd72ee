import ClassDocs.Proofs.InitialText
import ClassDocs.Proofs.ItemSpans
import Mathlib.Data.List.Forall2

/-!
# Recorded initial values

What is recorded for the value of a constant, an enum case or a property is its initial value as it
was written, as long as the text of the item lets the value be found by its first equals sign
(`classes_record_initials`). This holds for any parser that says where the items stand.
-/

namespace ClassDocs.Source

open ClassDocs.Text

/-! ## What is recorded -/

/-- The text of an item around its initial value. -/
structure Initial where
  /-- What stands before the equals sign. -/
  before : List Char
  /-- What stands between the equals sign and the expression. -/
  gap : List Char
  expression : List Char
  /-- What stands behind the expression. -/
  behind : List Char

/-- The text of a stretch, cut around an initial value in it. -/
def InitialNode.cut (content : List Char) (s : Stretch) (i : InitialNode) : Initial where
  before := slice s.start i.equals content
  gap := slice (i.equals + 1) i.value.start content
  expression := slice i.value.start i.value.stop content
  behind := slice i.value.stop s.stop content

/-- The value of the item is the text of the expression, without white space around it. -/
def Initial.Gives (i : Initial) (value : Option String) : Prop :=
  value = some (.ofList (trim i.expression))

/-- No other equals sign comes first, and only white space stands in front of the expression. -/
def Initial.Leads (i : Initial) : Prop := '=' ∉ i.before ∧ ∀ c ∈ i.gap, isBlank c = true

/-- What is recorded of a constant or a property: its name, and a value if there is an initial
value. The value is that one just if the initial value leads the text. This leaves out expressions
that are all white space, or start or end with a semicolon: a name in exotic blanks, or a string
that is never closed. -/
structure ItemNode.Records (content : List Char) (item : ItemNode)
    (recorded : String × Option String) : Prop where
  name : recorded.1 = item.name
  none_of : item.initial = none → recorded.2 = none
  some_iff : ∀ i, item.initial = some i → Whole (trim (i.cut content item.stretch).expression) →
    recorded.2 ≠ none ∧
      ((i.cut content item.stretch).Gives recorded.2 ↔ (i.cut content item.stretch).Leads)

/-- What is recorded of an enum case. Its attributes come first in its text and its terminator
last, so that more can stand in the way of the initial value, and something can be recorded without
one. -/
structure ItemNode.RecordsCase (content : List Char) (item : ItemNode)
    (recorded : String × Option String) : Prop where
  name : recorded.1 = item.name
  /-- Nothing is recorded just if only an ending stands behind the first equals sign, wherever that
  stands. -/
  none_iff : recorded.2 = none ↔ ∀ front rest,
    slice item.stretch.start item.stretch.stop content = front ++ '=' :: rest → '=' ∉ front →
      isEnding rest = true
  some_iff : ∀ i, item.initial = some i → Whole (trim (i.cut content item.stretch).expression) →
    recorded.2 ≠ none ∧ ((i.cut content item.stretch).Gives recorded.2 ↔
      (i.cut content item.stretch).Leads ∧ isEnding (i.cut content item.stretch).behind = true)

/-! ## Items -/

/-- The text of a stretch is cut at the equals sign of an initial value in it and around the
expression. -/
theorem InitialNode.Inside.slice_eq {content : List Char} {s : Stretch} {i : InitialNode}
    (h : i.Inside content s) :
    slice s.start s.stop content = (i.cut content s).before ++ '=' ::
      ((i.cut content s).gap ++ ((i.cut content s).expression ++ (i.cut content s).behind)) := by
  have hcut := h.cuts
  simp only [List.forall_mem_cons] at hcut
  obtain ⟨hstart, hequals, hafter, hvalue, hstop, -⟩ := hcut
  have h₁ := h.start_le
  have h₂ := h.equals_lt
  have h₃ := h.value_le
  have h₄ := h.stop_le
  rw [slice_append hstart hequals h₁ (by omega),
    slice_append hequals hafter (by omega) (by omega), h.sign,
      slice_append hafter hvalue h₂ (by omega), slice_append hvalue hstop h₃ h₄]
  rfl

theorem isEnding_nil : isEnding [] = true := rfl

/-- What is recorded for an item. -/
def File.record (file : File) (item : ItemNode) : String × Option String :=
  (item.name, initializer (file.text item.stretch))

variable (file : File) {item : ItemNode}

theorem ItemNode.FromName.records {mark : List Char} (hmark : '=' ∉ mark)
    (h : item.FromName file.content mark) :
    item.Records file.content (file.record item) := by
  refine ⟨rfl, fun hnone => ?_, fun i hi hwhole => ?_⟩
  · refine initializer_eq_none_iff.mpr fun front rest htext _ => ?_
    rw [File.text, h.alone hnone] at htext
    have hmem : '=' ∈ mark ++ item.name.toList := by rw [htext]; simp
    exact absurd hmem (by simp [hmark, h.name])
  · obtain ⟨hinside, hstop⟩ := h.valued i hi
    have hbehind : (i.cut file.content item.stretch).behind = [] := by
      rw [InitialNode.cut, hstop]
      simp [slice, takeBytes_zero]
    have htext := hinside.slice_eq
    rw [File.record, File.text, htext]
    refine ⟨initializer_ne_none _ _ _ _ hwhole, (initializer_eq_some_iff _ _ _ _ hwhole).trans ?_⟩
    rw [hbehind]
    simp [Initial.Leads, isEnding_nil]

theorem records_case (h : ∀ i, item.initial = some i → i.Inside file.content item.stretch) :
    item.RecordsCase file.content (file.record item) := by
  refine ⟨rfl, initializer_eq_none_iff, fun i hi hwhole => ?_⟩
  rw [File.record, File.text, (h i hi).slice_eq]
  refine ⟨initializer_ne_none _ _ _ _ hwhole, (initializer_eq_some_iff _ _ _ _ hwhole).trans ?_⟩
  rw [Initial.Leads, and_assoc]

/-! ## Classes -/

theorem classesOf_eq (file : File) (scope : Scope) (nodes : List TopNode) :
    classesOf file scope nodes = (nodes.filterMap TopNode.class?).map (classOf file scope) := by
  rw [classesOf, List.map_filterMap]
  congr
  funext node
  cases node <;> rfl

theorem forall₂_flatMap {α β γ : Type} {r : β → γ → Prop} {f : α → List β}
    {g : α → List γ} {l : List α} (h : ∀ x ∈ l, List.Forall₂ r (f x) (g x)) :
    List.Forall₂ r (l.flatMap f) (l.flatMap g) := by
  have hself : List.Forall₂ (fun x y => x ∈ l ∧ x = y) l l :=
    List.forall₂_same.mpr fun x hx => ⟨hx, rfl⟩
  refine List.rel_flatMap hself ?_
  rintro x _ ⟨hx, rfl⟩
  exact h x hx

/-- The classes of a file are made of those that the parser finds, in order. -/
theorem forall₂_classes (parser : Parser) (path content : String) :
    List.Forall₂ (fun node c => ∃ scope,
        c = classOf ⟨path, content.toList, (parser.parse content.toList).comments⟩ scope node)
      (parser.parse content.toList).classNodes (parser.classes path content) := by
  have hof : ∀ (file : File) (scope : Scope) (nodes : List ClassNode),
      List.Forall₂ (fun node c => ∃ scope, c = classOf file scope node) nodes
          (nodes.map (classOf file scope)) := by
    intro file scope nodes
    rw [List.forall₂_map_right_iff, List.forall₂_same]
    exact fun node _ => ⟨scope, rfl⟩
  unfold Parser.classes Parsed.classNodes
  refine forall₂_flatMap fun node _ => ?_
  cases node with
  | top node =>
    dsimp only
    rw [classesOf_eq]
    cases node <;> exact hof _ _ _
  | space node =>
    dsimp only
    rw [classesOf_eq]
    exact hof _ _ _

/-- The constants of a member that are no enum cases. -/
def MemberNode.constantItems : MemberNode → List ItemNode
  | .constants _ _ _ items => items
  | _ => []

/-- The enum cases of a member. -/
def MemberNode.caseItems : MemberNode → List ItemNode
  | .enumCase item => [item]
  | _ => []

/-- The properties of a member. -/
def MemberNode.propertyItems : MemberNode → List ItemNode
  | .properties _ _ _ items => items
  | _ => []

/-- The constants of a class, either the enum cases or the others, each with its value. -/
def valuesOf (isCase : Bool) (constants : List Constant) : List (String × Option String) :=
  (constants.filter (·.isCase == isCase)).map fun k => (k.name, k.value)

/-- The properties of a class that are declared by themselves, each with its initial value. -/
def initialsOf (properties : List Property) : List (String × Option String) :=
  (properties.filter (!·.isPromoted)).map fun p => (p.name, p.initial)

/-- What each member adds to a view of the members, all members of a class add one after the
other. -/
theorem foldl_addMember {α : Type} {o : Owner} {inInterface : Bool} (view : Members → List α)
    (part : MemberNode → List α)
    (hstep : ∀ ms node, view (o.addMember inInterface ms node) = view ms ++ part node)
    (nodes : List MemberNode) (ms : Members) :
    view (nodes.foldl (o.addMember inInterface) ms) = view ms ++ nodes.flatMap part := by
  induction nodes generalizing ms with
  | nil => rw [List.foldl_nil, List.flatMap_nil, List.append_nil]
  | cons node nodes ih => rw [List.foldl_cons, ih, hstep, List.flatMap_cons, List.append_assoc]

section AddMember

variable (o : Owner) (inInterface : Bool) (ms : Members) (node : MemberNode)

theorem constants_addMember :
    valuesOf false (o.addMember inInterface ms node).constants =
      valuesOf false ms.constants ++ node.constantItems.map o.file.record := by
  cases node with
  | constants start words hint items =>
    simp [valuesOf, Owner.addMember, MemberNode.constantItems, Owner.member, File.record,
      List.filter_map, Function.comp_def]
  | enumCase item => simp [valuesOf, Owner.addMember, MemberNode.constantItems]
  | properties start words hint items | method start words name parameters result
      | traitUse names =>
    simp [Owner.addMember, MemberNode.constantItems]

theorem cases_addMember :
    valuesOf true (o.addMember inInterface ms node).constants =
      valuesOf true ms.constants ++ node.caseItems.map o.file.record := by
  cases node with
  | constants start words hint items =>
    simp [valuesOf, Owner.addMember, MemberNode.caseItems, List.filter_map, Function.comp_def]
  | enumCase item =>
    simp [valuesOf, Owner.addMember, MemberNode.caseItems, Owner.member, File.record]
  | properties start words hint items | method start words name parameters result
      | traitUse names =>
    simp [Owner.addMember, MemberNode.caseItems]

theorem properties_addMember :
    initialsOf (o.addMember inInterface ms node).properties =
      initialsOf ms.properties ++ node.propertyItems.map o.file.record := by
  cases node with
  | properties start words hint items =>
    simp [initialsOf, Owner.addMember, MemberNode.propertyItems, Owner.member, File.record,
      List.filter_map, Function.comp_def]
  | method start words name parameters result =>
    have hpromoted : (o.promoted parameters).filter (!·.isPromoted) = [] := by
      refine List.filter_eq_nil_iff.mpr fun p hp => ?_
      obtain ⟨node, -, rfl⟩ := List.mem_map.mp hp
      exact Bool.false_ne_true
    simp only [initialsOf, Owner.addMember, MemberNode.propertyItems, List.filter_append,
      List.map_append, List.map_nil]
    split
    · rw [hpromoted, List.map_nil]
    · rfl
  | constants start words hint items | enumCase item | traitUse names =>
    simp [Owner.addMember, MemberNode.propertyItems]

end AddMember

section Members

variable (scope : Scope) (node : ClassNode)

theorem constants_classOf :
    valuesOf false (classOf file scope node).constants =
      node.members.flatMap fun m => m.constantItems.map file.record :=
  foldl_addMember (fun ms => valuesOf false ms.constants)
    (fun m => m.constantItems.map file.record)
    (constants_addMember ⟨qualify scope node.name, file, scope⟩ (node.word == .interface))
      node.members {}

theorem cases_classOf :
    valuesOf true (classOf file scope node).constants =
      node.members.flatMap fun m => m.caseItems.map file.record :=
  foldl_addMember (fun ms => valuesOf true ms.constants) (fun m => m.caseItems.map file.record)
    (cases_addMember ⟨qualify scope node.name, file, scope⟩ (node.word == .interface))
      node.members {}

theorem properties_classOf :
    initialsOf (classOf file scope node).properties =
      node.members.flatMap fun m => m.propertyItems.map file.record :=
  foldl_addMember (fun ms => initialsOf ms.properties) (fun m => m.propertyItems.map file.record)
    (properties_addMember ⟨qualify scope node.name, file, scope⟩ (node.word == .interface))
      node.members {}

end Members

/-- What is recorded for the items of some members. -/
theorem forall₂_record {file : File} {r : ItemNode → String × Option String → Prop}
    {itemsOf : MemberNode → List ItemNode} {members : List MemberNode}
    (h : ∀ m ∈ members, ∀ item ∈ itemsOf m, r item (file.record item)) :
    List.Forall₂ r (members.flatMap itemsOf)
      (members.flatMap fun m => (itemsOf m).map file.record) := by
  refine forall₂_flatMap fun m hm => ?_
  rw [List.forall₂_map_right_iff, List.forall₂_same]
  exact h m hm

/--
Where a parser says where the items of a class stand, what is recorded for a constant or a property
that is declared by itself is the text of its initial value, without white space around it, just if
no equals sign stands in front of the one of the item and no comment between it and the value; it
is nothing if there is no initial value. For an enum case nothing but semicolons may stand behind
the value either, and an equals sign anywhere in its attributes or comments stands for one of its
own.
-/
theorem classes_record_initials (parser : Parser) (path content : String)
    (h : ∀ node ∈ (parser.parse content.toList).classNodes, ∀ m ∈ node.members,
      m.Spanned content.toList) :
    List.Forall₂ (fun node c =>
        List.Forall₂ (ItemNode.Records content.toList) (node.members.flatMap (·.constantItems))
          (valuesOf false c.constants) ∧
        List.Forall₂ (ItemNode.RecordsCase content.toList) (node.members.flatMap (·.caseItems))
          (valuesOf true c.constants) ∧
        List.Forall₂ (ItemNode.Records content.toList) (node.members.flatMap (·.propertyItems))
          (initialsOf c.properties))
      (parser.parse content.toList).classNodes (parser.classes path content) := by
  have hspanned := (List.forall₂_and_left _ _).mpr ⟨h, forall₂_classes parser path content⟩
  refine hspanned.imp ?_
  rintro node c ⟨hmembers, scope, rfl⟩
  rw [constants_classOf, cases_classOf, properties_classOf]
  refine ⟨forall₂_record fun m hm item hitem => ?_, forall₂_record fun m hm item hitem => ?_,
    forall₂_record fun m hm item hitem => ?_⟩
  · cases m with
    | constants start words hint items =>
      exact ItemNode.FromName.records ⟨path, _, _⟩ List.not_mem_nil (hmembers _ hm item hitem)
    | properties | method | enumCase | traitUse => cases hitem
  · cases m with
    | enumCase item' =>
      obtain rfl := List.mem_singleton.mp hitem
      exact records_case ⟨path, _, _⟩ (hmembers _ hm)
    | constants | properties | method | traitUse => cases hitem
  · cases m with
    | properties start words hint items =>
      exact ItemNode.FromName.records ⟨path, _, _⟩ (by decide) (hmembers _ hm item hitem)
    | constants | method | enumCase | traitUse => cases hitem

/-- Initial values with attributes, comments and the end of the code around them. -/
def suitSource : String :=
  "<?php enum Suit: string \x7b #[Label('a=b')] case Hearts = 'h'; case Clubs = 'c' ; " ++
  "case Jokers; \x7d " ++
  "class Deck \x7b const A /* = */ = 1, B = 2; public $x = 1 ?><?php " ++
  "public function f() \x7b\x7d " ++
  "public $y = [1, 'a' => 2] /* = */, $z; \x7d"

/-- The reader finds seven values in it, of which two start at the wrong equals sign. -/
theorem classes_record_initials_suit :
    (∀ node ∈ (reader.parse suitSource.toList).classNodes, ∀ m ∈ node.members,
      m.Spanned suitSource.toList) ∧ List.Forall₂ (fun node c =>
          List.Forall₂ (ItemNode.Records suitSource.toList)
            (node.members.flatMap (·.constantItems)) (valuesOf false c.constants) ∧
          List.Forall₂ (ItemNode.RecordsCase suitSource.toList)
            (node.members.flatMap (·.caseItems)) (valuesOf true c.constants) ∧
          List.Forall₂ (ItemNode.Records suitSource.toList)
            (node.members.flatMap (·.propertyItems)) (initialsOf c.properties))
        (reader.parse suitSource.toList).classNodes (classes "a.php" suitSource) ∧
      (classes "a.php" suitSource).map
        (fun c => (valuesOf true c.constants, c.methods.map (·.name))) =
        [([("Hearts", some "b')] case Hearts = 'h'"), ("Clubs", some "'c'"), ("Jokers", none)],
          []), ([], ["f"])] ∧
      (classes "a.php" suitSource).map
        (fun c => (valuesOf false c.constants, initialsOf c.properties)) =
        [([], []), ([("A", some "*/ = 1"), ("B", some "2")],
          [("x", some "1"), ("y", some "[1, 'a' => 2]"), ("z", none)])] :=
  ⟨reader_spanned _, classes_record_initials reader "a.php" suitSource (reader_spanned _),
    by decide +kernel⟩

/-- An equals sign in an attribute is taken for the one of the case: its value starts inside
the attribute. -/
theorem value_of_marked_case :
    (classes "a.php" "<?php enum Suit: string \x7b #[Label('a=b')] case Hearts = 'h'; \x7d").map
      (fun c => c.constants.map (·.value)) = [[some "b')] case Hearts = 'h'"]] := by
  decide +kernel

end ClassDocs.Source

import ClassDocs.Source.Node

/-!
# Parsers

Declarations are read from what a parser finds in a source: its comments and a tree of its
declarations. Which parser it is makes no difference to them, so everything that is done with
declarations is done for any parser. One thing is asked of it: the names it gives are the texts of
name tokens, and the name of a class has no backslash.
-/

namespace ClassDocs.Source

/-- The text of a name token: a letter comes first, or second behind a backslash. -/
def NameText (s : String) : Prop :=
  ∃ c cs, isNameStart c = true ∧
    (s.toList = c :: nameTail cs ∨ s.toList = '\\' :: c :: nameTail cs)

/-- The text of a name token without backslashes. -/
def PlainName (s : String) : Prop := NameText s ∧ '\\' ∉ s.toList

/-- A class header has a name without backslashes and name tokens for its parents. -/
structure ClassNode.Sound (node : ClassNode) : Prop where
  name : PlainName node.name
  parents : ∀ s ∈ node.parents, NameText s

/-- The names that a `use` statement is made of are name tokens. -/
structure UseStatement.Sound (use : UseStatement) : Prop where
  base : ∀ s, use.base = some s → NameText s
  items : ∀ item ∈ use.items, NameText item.name

/-- The names in a declaration at the top of a file are name tokens. -/
inductive TopNode.Sound : TopNode → Prop where
  | use {statement : UseStatement} : statement.Sound → TopNode.Sound (.use statement)
  | decl {node : ClassNode} : node.Sound → TopNode.Sound (.decl node)

/-- The names in a part of a file are name tokens. -/
inductive FileNode.Sound : FileNode → Prop where
  | top {node : TopNode} : node.Sound → FileNode.Sound (.top node)
  | space {node : SpaceNode} :
      (∀ s, node.name = some s → NameText s) → (∀ n ∈ node.body, n.Sound) →
      FileNode.Sound (.space node)

/-- What a parser finds in a source. -/
structure Parsed where
  comments : List Comment
  nodes : List FileNode

/-- A parser of sources. -/
structure Parser where
  parse : List Char → Parsed
  /-- The names in the declarations of a source are name tokens. -/
  sound : ∀ content, ∀ node ∈ (parse content).nodes, node.Sound

end ClassDocs.Source

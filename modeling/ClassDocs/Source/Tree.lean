import ClassDocs.Source.Token
import ClassDocs.Text.Fold

/-!
# Bracketed code

Tokens gathered by their brackets. What stands in a pair of brackets is one tree, so a method body,
a list of parameters or an attribute is skipped or entered as a whole, and the end of a statement
is the next semicolon or block beside it.
-/

namespace ClassDocs.Source

/-- A token, or a pair of brackets with what it holds. -/
inductive Tree where
  | leaf (t : Token)
  | group (opener : String) (start stop : Nat) (inner : List Tree)

instance : Inhabited Tree := ⟨.group "" 0 0 []⟩

/-- A pair of brackets that is still open, with what it holds so far, last first. -/
structure Frame where
  opener : String
  start : Nat
  held : List Tree

/-- The signs that open a pair of brackets. -/
def isOpener (s : String) : Bool := ["(", "[", "\x7b", "#["].contains s

/-- The signs that close a pair of brackets. -/
def isCloser (s : String) : Bool := [")", "]", "\x7d"].contains s

/-- Put a tree at the end of the innermost open pair, or at the end of the trees outside all
pairs. -/
def addTree (tree : Tree) : List Frame × List Tree → List Frame × List Tree
  | ([], done) => ([], tree :: done)
  | (f :: fs, done) => ({ f with held := tree :: f.held } :: fs, done)

/-- Take in one more token. -/
def addToken (state : List Frame × List Tree) (t : Token) : List Frame × List Tree :=
  if t.kind == .sign && isOpener t.text then (⟨t.text, t.start, []⟩ :: state.1, state.2)
  else if t.kind == .sign && isCloser t.text then
    match state with
    | (f :: fs, done) => addTree (.group f.opener f.start t.stop f.held.reverse) (fs, done)
    | ([], done) => ([], done)
  else addTree (.leaf t) state

/-- The trees of a list of tokens. -/
def trees (ts : List Token) : List Tree := (ts.foldl addToken ([], [])).2.reverse

namespace Tree

/-- The byte offset of the start. -/
def start : Tree → Nat
  | .leaf t => t.start
  | .group _ start _ _ => start

/-- The byte offset of the end. -/
def stop : Tree → Nat
  | .leaf t => t.stop
  | .group _ _ stop _ => stop

/-- Whether this is the given sign. -/
def isSign (sign : String) : Tree → Bool
  | .leaf t => t.kind == .sign && t.text == sign
  | .group _ _ _ _ => false

/-- Whether this is a pair of brackets with the given opener. -/
def isGroup (opener : String) : Tree → Bool
  | .leaf _ => false
  | .group o _ _ _ => o == opener

/-- What a pair of brackets holds. -/
def inner : Tree → List Tree
  | .leaf _ => []
  | .group _ _ _ inner => inner

/-- The text of a name. -/
def name? : Tree → Option String
  | .leaf t => if t.kind == .name then some t.text else none
  | .group _ _ _ _ => none

/-- The text of a name without backslashes. -/
def plainName? (tree : Tree) : Option String := tree.name?.filter (!·.toList.contains '\\')

/-- The name of a variable without its dollar sign. -/
def varName? : Tree → Option String
  | .leaf t => if t.kind == .variable then some (.ofList (t.text.toList.drop 1)) else none
  | .group _ _ _ _ => none

/-- The text of a name in lower case. -/
def word? (tree : Tree) : Option String := tree.name?.map Text.lower

/-- Whether this is the given word in any letter case. -/
def isWord (word : String) (tree : Tree) : Bool := tree.word? == some word

/-- Whether this is a block. -/
def isBlock (tree : Tree) : Bool := tree.isGroup "\x7b"

/-- Whether this ends a statement. -/
def isEnd (tree : Tree) : Bool := tree.isSign ";" || tree.isSign "?>" || tree.isBlock

/-- Whether this leads to the name of a member. -/
def isMemberAccess (tree : Tree) : Bool :=
  tree.isSign "->" || tree.isSign "?->" || tree.isSign "::"

/-- Whether this word of an expression is followed by a block that belongs to the expression. -/
def asksForBlock (tree : Tree) : Bool := ["match", "function", "class"].any (tree.isWord ·)

end Tree

mutual

/-- The number of tokens and pairs of brackets in a tree. -/
def Tree.weight : Tree → Nat
  | .leaf _ => 1
  | .group _ _ _ inner => weightAll inner + 1

/-- The number of tokens and pairs of brackets in several trees. -/
def weightAll : List Tree → Nat
  | [] => 0
  | t :: ts => t.weight + weightAll ts

end

/-- Trees in which a block inside an initial value is joined to its expression, so that it ends no
statement: the body of a closure, of an anonymous class or of a `match`, and the name of a member
in braces. Any other block ends the value. `inValue` says that an equals sign came before, `access`
that the tree before leads to a member, and `held` are the trees, last first, of an expression
whose block is still to come. -/
def joinBlocks (inValue access : Bool) (held : List Tree) : List Tree → List Tree
  | [] => held.reverse
  | t :: ts =>
    if t.isSign ";" || t.isSign "?>" then held.reverse ++ t :: joinBlocks false false [] ts
    else
      match held with
      | _ :: _ =>
        if t.isBlock then
          let whole := held.reverse ++ [t]
          .group "" ((whole.head?.map Tree.start).getD t.start) t.stop whole ::
            joinBlocks true false [] ts
        else joinBlocks true false (t :: held) ts
      | [] =>
        if inValue && !access && t.asksForBlock then joinBlocks true false [t] ts
        else if inValue && access && t.isBlock then
          .group "" t.start t.stop [t] :: joinBlocks true false [] ts
        else
          let inValue := t.isSign "=" || (inValue && !t.isSign "," && !t.isBlock)
          t :: joinBlocks inValue (t.isMemberAccess || t.isSign "$") [] ts

/-- Trees cut behind each end of a statement. -/
def statements : List Tree → List (List Tree)
  | [] => []
  | t :: ts =>
    if t.isEnd then [t] :: statements ts
    else match statements ts with
      | [] => [[t]]
      | s :: rest => (t :: s) :: rest

/-- Trees cut at the commas beside them. -/
def splitCommas : List Tree → List (List Tree)
  | [] => [[]]
  | t :: ts =>
    match splitCommas ts with
    | [] => [[t]]
    | part :: parts => if t.isSign "," then [] :: part :: parts else (t :: part) :: parts

end ClassDocs.Source

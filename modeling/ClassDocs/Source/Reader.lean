import ClassDocs.Source.Node

/-!
# Reading the declarations of a file

Statements end at a semicolon, at the end of the code or behind a block. What a statement is shows
at its start, so a file is read by looking at the start of each statement, and the body of a class
by looking at the start of each member. Inside a control structure written with a colon (`if (…): …
endif;`) nothing is declared at the top of the file; the depth of such structures is counted.
-/

namespace ClassDocs.Source

/-- The leading trees that satisfy `p`, and the rest. -/
def takeTrees (p : Tree → Bool) (ts : List Tree) : List Tree × List Tree :=
  (ts.takeWhile p, ts.dropWhile p)

/-- The byte offset of the start of some trees. -/
def startOf (ts : List Tree) : Nat := (ts.head?.map Tree.start).getD 0

/-- The byte offset of the end of some trees. -/
def stopOf (ts : List Tree) : Nat := (ts.getLast?.map Tree.stop).getD 0

/-- The names in a list with commas. -/
def nameList (ts : List Tree) : List String :=
  (splitCommas ts).filterMap fun part => part.head?.bind Tree.name?

/-- The names of the attributes in some pairs of attribute brackets. -/
def attributeNames (groups : List Tree) : List String := groups.flatMap fun g => nameList g.inner

/-- The modifier that a word stands for. -/
def modifier? (t : Tree) : Option Modifier :=
  match t.word? with
  | some "public" => some .pub
  | some "protected" => some .prot
  | some "private" => some .priv
  | some "static" => some .static
  | some "abstract" => some .abstract
  | some "final" => some .final
  | some "readonly" => some .readonly
  | _ => none

/-- Whether this is `(set)`, which restricts a visibility to assignments. -/
def isSetMark (t : Tree) : Bool :=
  t.isGroup "(" && match t.inner with
    | [word] => word.isWord "set"
    | _ => false

/-- The leading modifiers, and the rest. -/
def takeModifiers : List Tree → List Modifier × List Tree
  | [] => ([], [])
  | t :: ts =>
    match modifier? t with
    | none => ([], t :: ts)
    | some m =>
      match ts with
      | [] => ([m], [])
      | mark :: rest =>
        if isSetMark mark then
          let (ms, left) := takeModifiers rest
          (.setOnly :: ms, left)
        else
          let (ms, left) := takeModifiers (mark :: rest)
          (m :: ms, left)

/-- The leading native type, unless a variable, `&` or `...` comes first, and the rest. -/
def takeHint (ts : List Tree) : Option Hint × List Tree :=
  match ts.head? with
  | some t =>
    if t.varName?.isSome || t.isSign "&" || t.isSign "..." then (none, ts) else Hint.take ts
  | none => (none, ts)

/-- Whether the first tree is the given sign, and the trees after it if it is. -/
def takeSign (sign : String) (ts : List Tree) : Bool × List Tree :=
  match ts with
  | t :: rest => if t.isSign sign then (true, rest) else (false, ts)
  | [] => (false, ts)

/-- One parameter of a method. -/
def readParameter? (part : List Tree) : Option ParameterNode :=
  let (_, ts) := takeTrees (·.isGroup "#[") part
  let (modifiers, ts) := takeModifiers ts
  let (hint, ts) := takeHint ts
  let (isReference, ts) := takeSign "&" ts
  let (isVariadic, ts) := takeSign "..." ts
  match ts with
  | [] => none
  | v :: rest => v.varName?.map fun name =>
    let value := rest.takeWhile (!·.isBlock)
    { start := startOf part
      modifiers
      hint
      isReference
      isVariadic
      name
      initial := if value.isEmpty then none else some ⟨startOf value, stopOf value⟩
      hasHooks := rest.any (·.isBlock) }

/-- The parameters in a pair of parentheses. -/
def readParameters (group : Tree) : List ParameterNode :=
  (splitCommas (joinBlocks false false [] group.inner)).filterMap readParameter?

/-- The initial value among some trees: what stands behind the equals sign beside them, up to
the end of the statement. -/
def initialIn (ts : List Tree) : Option InitialNode :=
  match ts.dropWhile (!·.isSign "=") with
  | [] => none
  | eq :: after =>
    match after.takeWhile (!·.isEnd) with
    | [] => none
    | t :: us => some ⟨eq.start, ⟨t.start, stopOf (t :: us)⟩⟩

/-- One constant or property with its initial value. Without one, its name is all there is of
it. -/
def readItem? (name? : Tree → Option String) (part : List Tree) : Option ItemNode :=
  part.head?.bind fun t => (name? t).map fun name =>
    ⟨name, ⟨t.start, ((initialIn part).map (·.value.stop)).getD t.stop⟩, initialIn part⟩

/-- The constants or properties of one member, each with its initial value. -/
def readItems (name? : Tree → Option String) (ts : List Tree) : List ItemNode :=
  (splitCommas (ts.filter (!·.isEnd))).filterMap (readItem? name?)

/-- The native type of constants. Without one, the first name is followed by the initial value. -/
def takeConstantHint (ts : List Tree) : Option Hint × List Tree :=
  match ts with
  | t :: u :: _ => if t.name?.isSome && u.isSign "=" then (none, ts) else Hint.take ts
  | _ => (none, ts)

/-- A method, from what follows the word `function`. -/
def readMethod? (start : Nat) (modifiers : List Modifier) (ts : List Tree) : Option MemberNode :=
  let (_, ts) := takeSign "&" ts
  match ts with
  | t :: group :: rest => t.name?.map fun name =>
    let (typed, rest) := takeSign ":" rest
    .method start modifiers name (readParameters group)
      (if typed then (Hint.take rest).1 else none)
  | _ => none

/-- A member of a class from the trees of its statement. -/
def readMember? (member : List Tree) : Option MemberNode :=
  let (_, declared) := takeTrees (·.isGroup "#[") member
  let (modifiers, ts) := takeModifiers declared
  match ts with
  | [] => none
  | t :: rest =>
    match t.word? with
    | some "use" => some (.traitUse (nameList (rest.takeWhile (!·.isEnd))))
    | some "case" =>
      rest.head?.bind fun n => n.name?.map fun name =>
        .enumCase ⟨name, ⟨startOf member, stopOf member⟩, initialIn member⟩
    | some "const" =>
      let (hint, rest) := takeConstantHint rest
      some (.constants (startOf declared) modifiers hint (readItems Tree.name? rest))
    | some "function" => readMethod? (startOf member) modifiers rest
    | word =>
      let (hint, rest) := takeHint (if word == some "var" then rest else t :: rest)
      some (.properties (startOf member) modifiers hint (readItems Tree.varName? rest))

/-- The declaration that a word opens. -/
def classWord? (t : Tree) : Option ClassWord :=
  match t.word? with
  | some "class" => some .ordinary
  | some "interface" => some .interface
  | some "trait" => some .trait
  | some "enum" => some .enum
  | _ => none

/-- The names behind a word of a class header. -/
def namesAfter (word : String) (header : List Tree) : List String :=
  match header.dropWhile (!·.isWord word) with
  | _ :: rest => nameList (rest.takeWhile fun t => !(t.isWord "extends" || t.isWord "implements"))
  | [] => []

/-- A class-like declaration from the trees of its statement. -/
def readClass? (statement : List Tree) : Option ClassNode :=
  let (attributes, ts) := takeTrees (·.isGroup "#[") statement
  let (modifiers, ts) := takeModifiers ts
  match ts with
  | t :: u :: rest =>
    match classWord? t, u.plainName? with
    | some word, some name =>
      let (header, body) := takeTrees (!·.isBlock) rest
      let (backed, afterColon) := takeSign ":" header
      some
        { start := startOf statement
          word
          modifiers
          attributes := attributeNames attributes
          name
          parents := namesAfter "extends" header
          interfaces := namesAfter "implements" header
          backing := if backed then (Hint.take afterColon).1 else none
          members :=
            (statements (joinBlocks false false [] (body.flatMap Tree.inner))).filterMap
              readMember? }
    | _, _ => none
  | _ => none

/-- A declaration from the trees of its statement. -/
def readTop? (statement : List Tree) : Option TopNode :=
  match statement with
  | t :: rest =>
    if t.isWord "use" then some (.use (readUse rest)) else (readClass? statement).map .decl
  | [] => none

/-- A statement without the labels in front of it. -/
def dropLabels : List Tree → List Tree
  | t :: u :: rest => if t.name?.isSome && u.isSign ":" then dropLabels rest else t :: u :: rest
  | ts => ts

/-- The words of control structures that may be written with a colon. -/
def colonWords : List String := ["if", "while", "for", "foreach", "switch", "declare"]

/-- The words that close a control structure written with a colon. -/
def endWords : List String :=
  ["endif", "endwhile", "endfor", "endforeach", "endswitch", "enddeclare"]

/-- The depth of control structures written with a colon after some trees, given the depth before
them and whether the tree before them leads to a member. -/
def colonDepth (depth : Nat) (member : Bool) : List Tree → Nat
  | [] => depth
  | t :: ts =>
    let opens := !member && colonWords.any (t.isWord ·) && match ts with
      | g :: c :: _ => g.isGroup "(" && c.isSign ":"
      | _ => false
    let closes := !member && endWords.any (t.isWord ·)
    let depth := if opens then depth + 1 else if closes then depth - 1 else depth
    colonDepth depth t.isMemberAccess ts

/-- The statements outside all control structures, without labels. -/
def outermost (depth : Nat) : List (List Tree) → List (List Tree)
  | [] => []
  | s :: rest =>
    let others := outermost (colonDepth depth false s) rest
    if depth == 0 then dropLabels s :: others else others

/-- The declarations in a list of trees. -/
def readTops (ts : List Tree) : List TopNode := (outermost 0 (statements ts)).filterMap readTop?

/-- The name and the block of a namespace statement. Without a block the namespace reaches to the
next one. -/
def namespace? (statement : List Tree) : Option (Option String × Option (List Tree)) :=
  match statement with
  | [t, u] =>
    if t.isWord "namespace" && u.isBlock then some (none, some u.inner) else none
  | [t, n, u] =>
    if t.isWord "namespace" && n.name?.isSome then
      some (n.name?, if u.isBlock then some u.inner else none)
    else none
  | _ => none

/-- Put one statement in front of the declarations after it. The first part of the pair holds those
that belong to no namespace yet. -/
def addStatement (statement : List Tree) (after : List TopNode × List FileNode) :
    List TopNode × List FileNode :=
  match namespace? statement with
  | some (name, none) => ([], .space ⟨name, after.1⟩ :: after.2)
  | some (name, some inner) => ([], .space ⟨name, readTops inner⟩ :: (after.1.map .top ++ after.2))
  | none => ((readTop? statement).toList ++ after.1, after.2)

/-- The declarations of a file. -/
def readFile (ts : List Tree) : List FileNode :=
  let (tops, nodes) := (outermost 0 (statements ts)).foldr addStatement ([], [])
  tops.map .top ++ nodes

end ClassDocs.Source

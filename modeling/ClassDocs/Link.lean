import ClassDocs.Index.Core
import ClassDocs.Index.Flatten
import ClassDocs.TypeRef.Basic

/-!
# Links

Where a class name points to: the page generated for a class of the root namespace, the manual of
the language for a core class, the documentation of a known third party, or nowhere.
-/

namespace ClassDocs

/-- The third parties known from the start, by namespace. -/
def knownParties : List (String × String) :=
  [("Psr", "https://www.php-fig.org/psr/"), ("Symfony", "https://symfony.com/doc/current/"),
    ("Illuminate", "https://laravel.com/api/master/"),
    ("Doctrine", "https://www.doctrine-project.org/projects/")]

/-- What links depend on besides the index. -/
structure LinkContext where
  /-- The namespace whose classes have pages. -/
  rootSpace : String := ""
  /-- The directory of the sources of the root namespace. -/
  rootPath : String := ""
  /-- Where the pages are published. -/
  baseUrl : String := ""
  /-- Namespaces and classes without pages. -/
  exclude : List String := []
  /-- Addresses by namespace. -/
  thirdParty : Table String := {}

namespace LinkContext

/-- A context with the known third parties. -/
def new (rootSpace rootPath baseUrl : String) : LinkContext :=
  { rootSpace := Name.bare rootSpace, rootPath, baseUrl, thirdParty := .ofList knownParties }

/-- Whether two contexts give the same links: paths compare by components, addresses
by namespace. -/
def same (a b : LinkContext) : Bool :=
  a.rootSpace == b.rootSpace && Path.same a.rootPath b.rootPath && a.baseUrl == b.baseUrl &&
    a.exclude == b.exclude && a.thirdParty.sorted == b.thirdParty.sorted

/-- Whether a class lives in the root namespace. -/
def isLocal (ctx : LinkContext) (className : String) : Bool :=
  !ctx.rootSpace.isEmpty && Name.inSpace className ctx.rootSpace

/-- Whether a class is left out. -/
def isExcluded (ctx : LinkContext) (className : String) : Bool :=
  ctx.exclude.any fun name =>
    Text.sameName className (Name.bare name) || Name.inSpace className (Name.bare name)

/-- The address of the third party with the longest namespace that holds a class; of two that are
equally long the last in order. -/
def thirdPartyUrl? (ctx : LinkContext) (className : String) : Option String :=
  let holding := ctx.thirdParty.sorted.filter fun e => Name.inSpace className e.1
  (holding.foldl (fun best e => match best with
    | none => some e
    | some b => if Text.byteLength b.1 ≤ Text.byteLength e.1 then some e else some b) none).map
      Prod.snd

/-- The address of the page of a class declared in a file; none if the file is not below the root
path. -/
def pageUrl? (ctx : LinkContext) (file : String) : Option String :=
  (Path.below? ctx.rootPath file).map fun place =>
    Text.stripTextEnd (· == '/') ctx.baseUrl ++ "/" ++ TypeExpr.joinTexts "/"
      (Path.withoutExtension place)

end LinkContext

/-- The address in the language's manual of a core class. -/
def manualUrl (className : String) : String :=
  "https://www.php.net/manual/en/class." ++ Text.lower className ++ ".php"

/-- Where a class name points to. -/
def linkOf (ctx : LinkContext) (className : String) : Lookup (Option String) := do
  let name := Name.withoutRoot className
  if ctx.isLocal name then
    if ctx.isExcluded name then return none
    else return (← Index.describe? name).bind fun c => ctx.pageUrl? c.file
  else if (← get).isInternal name then return some (manualUrl name)
  else return ctx.thirdPartyUrl? name

/-- Where a type points to. Only classes point anywhere. -/
def linkOfType (ctx : LinkContext) (type : TypeRef) : Lookup (Option String) :=
  if type.kind != .object then return none
  else
    match type.className? with
    | some name => linkOf ctx name
    | none => return none

end ClassDocs

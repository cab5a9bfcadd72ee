import ClassDocs.Config.Layer
import ClassDocs.Link

/-!
# Configuration

The settings of a run come in layers. From the lowest: built-in defaults, the user's file, the
project's file, then the project's autoload mappings for a root namespace and root path that are
still open, and the command line.
-/

namespace ClassDocs

/-- The settings of a run. -/
structure Config where
  /-- The directory of the manifest and the project's configuration file. -/
  projectRoot : String
  rootSpace : Option String := none
  /-- Relative to the project, unless absolute. -/
  rootPath : Option String := none
  baseUrl : String := ""
  outputDir : String := "docs/api"
  exclude : List String := []
  thirdParty : Table String := .ofList knownParties
  timeoutSecs : Nat := 10
  workers : Option Nat := none
  mappings : List Mapping := []

namespace Config

/-- The configuration with a layer put over it. -/
def apply (c : Config) (layer : Layer) : Config :=
  { c with
    rootSpace := (layer.rootSpace.map Name.bare).or c.rootSpace
    rootPath := layer.rootPath.or c.rootPath
    baseUrl := layer.baseUrl.getD c.baseUrl
    outputDir := layer.outputDir.getD c.outputDir
    exclude := layer.exclude.getD c.exclude
    thirdParty := c.thirdParty.union layer.thirdParty
    timeoutSecs := layer.timeoutSecs.getD c.timeoutSecs
    workers := layer.workers.or c.workers }

/-- The configuration with the project's mappings. The primary one gives the root namespace and
root path if they are still open. -/
def useMappings (c : Config) (mappings : List Mapping) : Config :=
  let primary := Mapping.primary? mappings
  { c with
    mappings
    rootSpace := c.rootSpace.or (primary.map (·.space))
    rootPath := c.rootPath.or (primary.map (·.base)) }

/-- What is wrong with a configuration, if anything. -/
def problem? (c : Config) : Option ConfigError :=
  if c.rootSpace.all String.isEmpty then some .noRootNamespace
  else if c.timeoutSecs == 0 then some .zeroTimeout
  else if c.workers == some 0 then some .zeroWorkers
  else none

/-- The layer of a configuration file. A file that is not there says nothing. -/
def readLayer (disk : Disk) (path : String) : Except Failure Layer :=
  match disk.read path with
  | .error .missing => .ok {}
  | .error .unreadable => .error (.io path)
  | .ok document =>
    match Layer.parse? document with
    | some layer => .ok layer
    | none => .error (.config (.malformedFile path))

/-- The project's configuration file. -/
def projectFile (root : String) : String := Path.join root ".phpantom-docs.toml"

/-- The configuration from its layers. -/
def ofLayers (root : String) (user project : Layer) (mappings : List Mapping)
    (commandLine : Layer) :
    Except Failure Config :=
  let c :=
    ((({ projectRoot := root : Config }.apply user).apply project).useMappings mappings).apply
    commandLine
  match c.problem? with
  | some problem => .error (.config problem)
  | none => .ok c

/-- The configuration of a project. -/
def load (disk : Disk) (userFile : Option String) (root : String) (commandLine : Layer) :
    Except Failure Config := do
  let user ← match userFile with
    | some path => readLayer disk path
    | none => .ok {}
  let project ← readLayer disk (projectFile root)
  ofLayers root user project (Mapping.ofProject disk root) commandLine

/-- The directory of the sources. -/
def sourceRoot (c : Config) : String :=
  match c.rootPath with
  | some path => Path.join c.projectRoot path
  | none => c.projectRoot

/-- The directory of the pages. -/
def outputRoot (c : Config) : String := Path.join c.projectRoot c.outputDir

/-- What links depend on. -/
def linkContext (c : Config) : LinkContext :=
  { rootSpace := c.rootSpace.getD ""
    rootPath := c.sourceRoot
    baseUrl := c.baseUrl
    exclude := c.exclude
    thirdParty := c.thirdParty }

end Config

end ClassDocs

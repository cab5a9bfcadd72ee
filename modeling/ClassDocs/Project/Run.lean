import ClassDocs.Batch
import ClassDocs.Config.Basic
import ClassDocs.Project.Discover

/-!
# Documenting a project

The source files of a project are indexed, a view is built for each class of the root namespace,
and the pages are written to the output directory. Classes outside the sources are loaded as they
are needed.
-/

namespace ClassDocs

/-- The index with the file at a path, if it can be read. -/
def Index.loadIfReadable (ix : Index) (disk : Disk) (path : String) : Index :=
  match ix.load disk path with
  | .ok (_, loaded) => loaded
  | .error _ => ix

namespace Config

/-- The index of the source files. -/
def index (c : Config) (disk : Disk) : Index :=
  (disk.sourceFiles c.sourceRoot).foldl (fun ix path => ix.loadIfReadable disk path)
    { project := some ⟨c.projectRoot, c.mappings, disk⟩ }

end Config

/-- What came of documenting a project. -/
structure ProjectRun where
  report : Report
  writing : Writing

/-- Document the classes of a project. -/
def Config.document (c : Config) (disk : Disk) : ProjectRun :=
  let ix := c.index disk
  let context := c.linkContext
  let report := (Report.run context (documentedClasses ix context) ix).1
  { report, writing := writePages disk (report.pages c.outputRoot context.rootSpace) }

end ClassDocs

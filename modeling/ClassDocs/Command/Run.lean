import ClassDocs.Command.Arguments
import ClassDocs.Project.Run

/-!
# The command

The command documents a project: it writes the pages of all classes, or prints the view of
one class. What it prints and writes is a function of its arguments and the tree of files.
-/

namespace ClassDocs.Command

/-- What a run of the command comes to. -/
structure Outcome where
  exitCode : Nat
  stdout : String := ""
  /-- The lines on the error output. -/
  stderr : List String := []
  /-- The files written, in order. -/
  written : List String := []
  /-- The tree afterwards. -/
  disk : Disk

/-- The text on the version. -/
def versionText : String := "phpantom-docs 0.1.0\n"

/-- The text on how to use the command. -/
def helpText : String :=
  "Build a resolved documentation model for the classes of a PHP project\n\n" ++
  "Usage: phpantom-docs [OPTIONS] [DIR]\n\n" ++
  "Arguments:\n" ++
  "  [DIR]  Project root (the directory holding composer.json) [default: .]\n\n" ++
  "Options:\n" ++
  "  -c, --class <CLASS>               Print the view of one class as JSON\n" ++
  "      --root-namespace <NAMESPACE>  Namespace whose classes are documented\n" ++
  "      --root-path <DIR>             Directory holding the root namespace's sources\n" ++
  "      --base-url <URL>              URL the generated pages are published under\n" ++
  "      --exclude <NAMESPACE>         Namespace to leave out; may be repeated\n" ++
  "  -o, --output <DIR>                Output directory, relative to the project\n" ++
  "  -j, --workers <WORKERS>           Number of classes built in parallel\n" ++
  "      --timeout <SECONDS>           Per-class time budget in seconds\n" ++
  "  -v, --verbose                     Log at debug level\n" ++
  "  -h, --help                        Print help\n" ++
  "  -V, --version                     Print version\n"

/-- The end of a run by a failure. -/
def failed (disk : Disk) (failure : Failure) : Outcome :=
  { exitCode := 1, stderr := ["error: " ++ failure.message], disk }

/-- Print the view of one class. -/
def showClass (disk : Disk) (c : Config) (className : String) : Outcome :=
  match (Builder.buildOnce c.linkContext className (c.index disk)).1 with
  | .error failure => failed disk failure
  | .ok (view, issues) =>
    { exitCode := 0
      stdout := view.toJson.render ++ "\n"
      stderr := issues.map fun issue => "warning: " ++ issue.message
      disk }

/-- The lines on a report whose pages were written. -/
def summary (report : Report) (written : List String) (directory : String) : List String :=
  [toString report.views.length ++ " classes documented, " ++ toString report.failures.length ++
      " failed, " ++ toString written.length ++ " files written to " ++ directory] ++
    report.issues.flatMap (fun (name, issues) =>
      issues.map fun issue => "warning: " ++ name ++ ": " ++ issue.message) ++
    report.failures.map fun (name, failure) => "error: " ++ name ++ ": " ++ failure.message

/-- Write the pages of a project. -/
def writeProject (disk : Disk) (c : Config) : Outcome :=
  let run := c.document disk
  match run.writing.failure? with
  | some failure => { failed run.writing.disk failure with written := run.writing.written }
  | none =>
    { exitCode := if run.report.isSuccess then 0 else 1
      stderr := summary run.report run.writing.written c.outputRoot
      written := run.writing.written
      disk := run.writing.disk }

/-- Do what the arguments ask for. -/
def runWith (disk : Disk) (userFile : Option String) (a : Arguments) : Outcome :=
  match Config.load disk userFile (a.project.getD ".") a.settings with
  | .error failure => failed disk failure
  | .ok c =>
    match a.className with
    | some name => showClass disk c name
    | none => writeProject disk c

/-- Do what a command line asks for. A wrong one ends with exit code 2. -/
def run (disk : Disk) (userFile : Option String) (arguments : List String) : Outcome :=
  match parse? arguments with
  | none => { exitCode := 2, disk }
  | some .help => { exitCode := 0, stdout := helpText, disk }
  | some .version => { exitCode := 0, stdout := versionText, disk }
  | some (.run a) => runWith disk userFile a

end ClassDocs.Command

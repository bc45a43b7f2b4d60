import SlottedLeaf.Command.Request
import SlottedLeaf.Config
import SlottedLeaf.Report.Print

/-!
# Runs of the command line

A run looks at what paths lead to and ends with a status, what it prints, and the file that it
changed. `runIn` is a run over the files of one directory.
-/

namespace SlottedLeaf.Command

/-- What a run leaves behind. -/
structure Outcome where
  status : Nat
  /-- The text on standard output. -/
  output : String
  /-- The line on standard error. -/
  complaint : Option String
  /-- The path of a file that was opened as a page store, and its content afterwards. -/
  written : Option (String × Bytes)
deriving DecidableEq, Repr

def versionText : String := "sombra-leaf 0.4.0"

def usageText : String :=
  "usage: sombra-leaf [--config FILE] [--log FILTER] inspect FILE --page ID " ++
    "[--page-size SIZE] [--format text|json]"

def Outcome.ofStop : Stop → Outcome
  | .misuse => ⟨2, "", some usageText, none⟩
  | .help => ⟨0, usageText ++ "\n", none, none⟩
  | .version => ⟨0, versionText ++ "\n", none, none⟩

def Outcome.failed (message : String) (written : Option (String × Bytes)) : Outcome :=
  ⟨1, "", some ("error: " ++ message), written⟩

def Format.print : Format → Report → String
  | .lines, report => report.toLines
  | .json, report => report.toJson

def Request.loadConfig (request : Request) (lookup : String → Entry) : Except Fault Config :=
  request.config.elim (.ok .default) fun path => Config.load path (lookup path)

/-- Runs a request. The configuration comes first, then the file. -/
def Request.run (request : Request) (lookup : String → Entry) : Outcome :=
  match request.loadConfig lookup with
  | .error fault => .failed fault.message none
  | .ok config =>
    match lookup request.file with
    | .file content =>
      let pageSize := request.pageSize.getD config.pageSize
      let (result, after) := Report.ofFile pageSize request.page content
      let written := some (request.file, after)
      match result with
      | .error fault => .failed fault.message written
      | .ok report => ⟨0, request.format.print report, none, written⟩
    | _ => .failed (request.file ++ " does not exist") none

def run (environment : String → Option String) (lookup : String → Entry)
    (arguments : List String) : Outcome :=
  match Request.ofArguments environment arguments with
  | .error stop => .ofStop stop
  | .ok request => request.run lookup

/-- Runs a command line over a directory, and gives the directory afterwards. -/
def runIn (directory : Directory) (environment : String → Option String)
    (arguments : List String) : Outcome × Directory :=
  let outcome := run environment directory.entry arguments
  (outcome, outcome.written.elim directory fun (path, content) => directory.write path content)

end SlottedLeaf.Command

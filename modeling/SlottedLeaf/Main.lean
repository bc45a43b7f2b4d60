import SlottedLeaf.Command.Run

/-!
# The program

Reads the files that the command line names, runs it, and does what the outcome says.
-/

namespace SlottedLeaf.Command

def entryOf (path : String) : IO Entry := do
  try
    return .file (← IO.FS.readBinFile path).toList
  catch
    | .inappropriateType _ 21 _ => return .folder
    | .inappropriateType .. => return .pastFile
    | .noFileOrDirectory .. => return .missing
    | .invalidArgument .. => return .overlong
    | other => throw other

def perform (before : String → Entry) (outcome : Outcome) : IO UInt32 := do
  if let some (path, content) := outcome.written then
    unless before path = .file content do
      IO.FS.writeBinFile path ⟨content.toArray⟩
  IO.print outcome.output
  if let some complaint := outcome.complaint then
    IO.eprintln complaint
  return UInt32.ofNat outcome.status

end SlottedLeaf.Command

open SlottedLeaf SlottedLeaf.Command in
def main (arguments : List String) : IO UInt32 := do
  let config ← IO.getEnv configVariable
  let environment := fun name => if name = configVariable then config else none
  match Request.ofArguments environment arguments with
  | .error stop => perform (fun _ => .missing) (.ofStop stop)
  | .ok request =>
    let entries ← request.paths.mapM fun path => return (path, ← entryOf path)
    let lookup := fun path => (entries.lookup path).getD .missing
    perform lookup (request.run lookup)

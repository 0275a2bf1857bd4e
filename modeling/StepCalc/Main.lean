import StepCalc.CommandLine.Command
import StepCalc.Viewer.Keys

/-!
# The program

Reads the files that the arguments name, prints the response and, if asked to, shows the step
viewer. The keys of the viewer are read line by line.
-/

namespace StepCalc

def readable? (path : String) : IO (Option String) := do
  try
    return some (← IO.FS.readFile path)
  catch _ => return none

/-- Shows the viewer, handles the keys of the next line, and so on until it is left. -/
partial def showViewer (v : Viewer) : IO Unit := do
  let v := v.settleFor 80 24
  for row in (v.paint 80 24).rows do
    IO.println (String.ofList (row.map Viewer.Glyph.char))
  unless v.quit do
    let line ← (← IO.getStdin).getLine
    unless line.isEmpty do
      let keys := line.toList.filter (· != '\n')
      showViewer (v.handleAll 80 24 (Viewer.Event.ofChars keys))

end StepCalc

open StepCalc in
/-- Carries out the command that the arguments ask for. -/
def main (args : List String) : IO UInt32 := do
  let names := match CommandLine.readRequest args with
    | .ok request => request.files
    | .error _ => []
  let mut files : List (String × String) := []
  for name in names do
    if let some text ← readable? name then
      files := (name, text) :: files
  let contents := files
  let response := CommandLine.respond (fun name => contents.lookup name) args
  IO.print response.stdout
  IO.eprint response.stderr
  if let some viewer := response.viewer then
    showViewer viewer
  return response.exitCode.toUInt32

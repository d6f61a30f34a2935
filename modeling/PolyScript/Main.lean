import PolyScript.CommandLine.Run

/-!
# The Program

Reads what a command needs and writes what it yields. Nothing is decided here.

## Main definitions

* `main`: The entry point.
-/

namespace PolyScript

/-- What a file holds, or why it cannot be read. -/
def readFile (path : String) : IO (String × Except String String) := do
  try
    return (path, .ok (← IO.FS.readFile path))
  catch e =>
    return (path, .error (toString e))

/-- Reads the standard input to its end. -/
def readInput : IO String := do
  (← IO.getStdin).readToEnd

/-- Reads what a command needs, and gives its outcome. -/
def perform (request : Request) : IO Outcome := do
  match request with
  | .execute command =>
    let contents ← command.paths.mapM readFile
    let input ← if command.readsInput then readInput else pure ""
    let files : Files := fun path => (contents.lookup path).getD (.error "unreadable")
    return request.run files input
  | _ => return request.run (fun _ => .error "unreadable") ""

end PolyScript

/-- Runs the program on the words of a command line. -/
def main (words : List String) : IO UInt32 := do
  let outcome ← PolyScript.perform (PolyScript.Request.ofArguments words)
  (← IO.getStdout).putStr outcome.output
  (← IO.getStderr).putStr outcome.errors
  return outcome.code.toUInt32

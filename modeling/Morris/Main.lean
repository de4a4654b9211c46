import Morris.Session.Arguments

/-!
# The program

The command line program: it reads its rule file if it was given one, then answers the lines of
standard input one by one.
-/

set_option autoImplicit false

namespace Morris

/-- The text of a file, unless it cannot be read. -/
def readText? (path : String) : IO (Option String) := do
  try
    return some (← IO.FS.readFile path)
  catch _ =>
    return none

/-- Answer the lines of the input until it ends or the session does. -/
partial def serve (s : Session) (input output : IO.FS.Stream) : IO Unit := do
  let line ← input.getLine
  if line.isEmpty then return
  let (printed, next) := s.handle line
  for text in printed do
    output.putStrLn text
  output.flush
  match next with
  | some s => serve s input output
  | none => return

/-- What the program says about its options. -/
def usage : String :=
  "options: --rule N | --rule-file PATH, --algorithm NAME, --depth N, --move-time SECONDS, "
    ++ "--threads N, --shuffle, --seed N, --no-ids"

end Morris

/-- Run the program. -/
def main (args : List String) : IO UInt32 := do
  let path := (Morris.Arguments.parse args).toOption.bind (·.ruleFile)
  let text ← match path with
    | some path => Morris.readText? path
    | none => pure none
  match Morris.Session.begin args (fun _ => text) with
  | .error finished =>
      IO.eprintln (finished.error.getD Morris.usage)
      return UInt32.ofNat finished.exitCode
  | .ok session =>
      Morris.serve session (← IO.getStdin) (← IO.getStdout)
      return 0

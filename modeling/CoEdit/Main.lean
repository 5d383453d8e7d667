import CoEdit.Command

/-!
# The program

Reads the settings file that the arguments name, if they name one, and carries out the command.
-/

open CoEdit

def readBytes (path : String) : IO (Option ByteArray) := do
  try return some (← IO.FS.readBinFile path) catch _ => return none

def main (args : List String) : IO UInt32 := do
  let path := (Command.Request.ofArgs? args).bind (·.config)
  let bytes ← match path with
    | some path => readBytes path
    | none => pure none
  let outcome := Command.run (fun _ => bytes) args
  IO.print outcome.stdout
  return outcome.status.toUInt32

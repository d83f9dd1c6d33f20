import Constituency.CommandLine.Run

/-!
The program: a run of the command line on the files and streams of the system.
-/
namespace Constituency.CommandLine

/-- The fault behind a code of the system. -/
def Fault.ofCode (code : Nat) (details : String) : Fault :=
  match code with
  | 2 => .notFound
  | 13 => .denied
  | 20 => .notDirectory
  | 21 => .isDirectory
  | 36 => .nameTooLong
  | _ => .other code details

def Fault.ofError : IO.Error → Fault
  | .noFileOrDirectory _ code details | .permissionDenied _ code details
  | .inappropriateType _ code details | .invalidArgument _ code details
  | .resourceExhausted _ code details | .noSuchThing _ code details
  | .alreadyExists _ code details | .interrupted _ code details
  | .resourceBusy code details | .unsupportedOperation code details
  | .otherError code details => .ofCode code.toNat details
  | e => .other 0 (toString e)

def attempt {α : Type} (action : IO α) : IO (Except Fault α) := do
  try
    return .ok (← action)
  catch e =>
    return .error (Fault.ofError e)

def systemHost : Host IO where
  probe path := attempt do
    let _ ← IO.FS.Handle.mk path .read
    return ()
  read path := attempt do return (← (← IO.FS.Handle.mk path .read).readBinToEnd).toList
  write path bytes := attempt (IO.FS.writeBinFile path ⟨bytes.toArray⟩)
  input := do return (← (← IO.getStdin).readBinToEnd).toList
  print text := do (← IO.getStdout).putStr text
  printError text := do (← IO.getStderr).putStr text

end Constituency.CommandLine

def main (arguments : List String) : IO UInt32 := do
  return (← Constituency.CommandLine.run Constituency.CommandLine.systemHost arguments).toUInt32

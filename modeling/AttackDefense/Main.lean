import AttackDefense.CommandLine

/-!
# The program

Runs a session on the files of the machine. The environment may ask for the fast strategy only
(`ADMDP_FAST`) and name a checker (`ADMDP_VERIFYTA`). The program starts no other one: the checker is
named by the file that holds its report on the model.
-/

namespace AttackDefense.CommandLine

/-- The fault of a failed file operation. -/
def fileFault : IO.Error → FileFault
  | .permissionDenied .. => .permissionDenied
  | .inappropriateType .. => .isADirectory
  | _ => .notFound

/-- A file operation with its fault as a value. -/
def attempt (act : IO α) : IO (Except FileFault α) := do
  match ← act.toBaseIO with
  | .ok a => return .ok a
  | .error e => return .error (fileFault e)

/-- The machine as surroundings of a session. -/
def machine : Host IO where
  load path := attempt (IO.FS.readFile path)
  store path content := attempt (IO.FS.writeFile path content)
  consult checker _ := attempt (IO.FS.readFile checker)
  print text := do
    let out ← IO.getStdout
    out.putStr text
    out.flush

end AttackDefense.CommandLine

open AttackDefense CommandLine in
def main (args : List String) : IO UInt32 := do
  let fast := (← IO.getEnv "ADMDP_FAST").isSome
  let checker ← IO.getEnv "ADMDP_VERIFYTA"
  let ended ← CommandLine.run machine ⟨fast, checker⟩ "admdp" args
  IO.eprint ended.complaint
  return UInt32.ofNat ended.code

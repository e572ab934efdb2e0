/-
The program: command lines run on the files of the system.
-/
import ThemeVars.CommandLine.Run

namespace ThemeVars.CommandLine

def withCode (details : String) (code : UInt32) : String :=
  details ++ " (os error " ++ toString code.toNat ++ ")"

/-- What the system says of an error. -/
def reasonOf : IO.Error → String
  | .noFileOrDirectory _ code details | .interrupted _ code details => withCode details code
  | .alreadyExists _ code details | .invalidArgument _ code details | .permissionDenied _ code details
  | .resourceExhausted _ code details | .inappropriateType _ code details | .noSuchThing _ code details =>
    withCode details code
  | .otherError code details | .resourceBusy code details | .resourceVanished code details
  | .unsupportedOperation code details | .hardwareFault code details | .unsatisfiedConstraints code details
  | .illegalOperation code details | .protocolError code details | .timeExpired code details =>
    withCode details code
  | e => toString e

/-- The result of an action, or the reason why there is none. -/
def attempt {α : Type} (action : IO α) : IO (Except String α) := do
  try return .ok (← action)
  catch e => return .error (reasonOf e)

def readText (path : Path) : IO (Except String String) := do
  match ← attempt (IO.FS.withFile ⟨path.text⟩ .read fun handle => handle.readBinToEnd) with
  | .error reason => return .error reason
  | .ok bytes =>
    match String.fromUTF8? bytes with
    | .some text => return .ok text
    | .none => return .error "stream did not contain valid UTF-8"

def isRegular (path : Path) : IO Bool := do
  try
    let found ← IO.FS.realPath ⟨path.text⟩
    return (← found.metadata).type == .file
  catch _ => return false

/-- The files of the system. -/
def systemHost : IO (Host IO) := do
  let directory ← IO.currentDir
  return {
    directory := ⟨directory.toString⟩
    isFile := isRegular
    read := readText
    write := fun path text => attempt (IO.FS.writeFile ⟨path.text⟩ text) }

end ThemeVars.CommandLine

def main (words : List String) : IO UInt32 := do
  let host ← ThemeVars.CommandLine.systemHost
  let outcome ← host.run words
  IO.print outcome.stdout
  IO.eprint outcome.stderr
  return outcome.code.toUInt32

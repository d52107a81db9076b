import Diagram.CommandLine.Outcome

/-!
# The program

Reads the arguments, the environment and the input, and writes the outcome.
-/

namespace Diagram.CommandLine

/-- A refusal by the system.  Some come with their number counted down from `2 ^ 32`. -/
def refusal (number : UInt32) (reason : String) : ReadFailure :=
  .ofNumber (if number < 0x80000000 then number.toNat else 0x100000000 - number.toNat)
    reason.capitalize

/-- Why something could not be read. -/
def failureOf : IO.Error → ReadFailure
  | .otherError n reason | .unsupportedOperation n reason | .hardwareFault n reason
  | .unsatisfiedConstraints n reason | .illegalOperation n reason | .protocolError n reason
  | .timeExpired n reason | .interrupted _ n reason | .noFileOrDirectory _ n reason
  | .alreadyExists _ n reason | .invalidArgument _ n reason | .permissionDenied _ n reason
  | .resourceExhausted _ n reason | .inappropriateType _ n reason | .noSuchThing _ n reason
  | .resourceBusy n reason | .resourceVanished n reason => refusal n reason
  | .unexpectedEof => refusal 0 "unexpected end of file"
  | .userError reason => refusal 0 reason

def readAll (stream : IO.FS.Stream) : IO ByteArray := do
  let mut bytes := ByteArray.empty
  repeat
    let more ← stream.read 65536
    if more.isEmpty then break
    bytes := bytes ++ more
  return bytes

/-- What is in a file, or on the standard input. -/
def readContents (file : Option String) : IO Contents :=
  try
    match file with
    | some path => return .ok (← IO.FS.readBinFile path)
    | none => return .ok (← readAll (← IO.getStdin))
  catch e => return .error (failureOf e)

/-- Names for shapes that no other run gives: 16 random bytes, counted on. -/
def freshIds : IO (Nat → ShapeId) := do
  let bytes ← IO.getRandomBytes 16
  return ShapeId.random (bytes.foldl (fun n b => 256 * n + b.toNat) 0)

/-- The variables of the environment that stand in for settings. -/
def readEnvironment : IO (List (String × String)) :=
  Setting.all.filterMapM (fun s => do
    return (← IO.getEnv s.variableName).map (s.variableName, ·))

end Diagram.CommandLine

open Diagram.CommandLine in
def main (arguments : List String) : IO UInt32 := do
  let outcome ←
    match Request.read (← readEnvironment) arguments with
    | .error misuse => pure ⟨2, "", "error: " ++ misuse.message ++ "\n"⟩
    | .ok .version => pure versionOutcome
    | .ok (.run command file) =>
      pure (command.outcome (← freshIds) file (← readContents file))
  IO.print outcome.output
  IO.eprint outcome.errorOutput
  return outcome.exitCode.toUInt32

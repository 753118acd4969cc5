import Bytescript.Command.Basic
import Std.Time.DateTime.Timestamp

/-!
# The program

Performs the command that its arguments give, on the file system.
-/
namespace Bytescript

def systemMessage : IO.Error → String
  | .noFileOrDirectory _ code details | .inappropriateType _ code details
  | .permissionDenied _ code details | .alreadyExists _ code details
  | .resourceExhausted _ code details | .invalidArgument _ code details =>
    s!"{details} (os error {code})"
  | .otherError code details | .unsupportedOperation code details | .hardwareFault code details
  | .resourceBusy code details | .timeExpired code details =>
    s!"{details} (os error {code})"
  | e => toString e

def Files.ofSystem : Files IO where
  read path := do
    try
      let content ← IO.FS.withFile path .read fun handle => handle.readBinToEnd
      return .ok content.data.toList
    catch e => return .error (systemMessage e)
  write path content := do
    try
      IO.FS.writeBinFile path ⟨content.toArray⟩
      return .ok ()
    catch e => return .error (systemMessage e)

end Bytescript

open Bytescript in
/-- Runs the command line. -/
def main (args : List String) : IO UInt32 := do
  let time := Int64.ofInt (← Std.Time.Timestamp.now).toSecondsSinceUnixEpoch.val
  let report ← (Command.ofArgs args).perform Files.ofSystem time
  IO.print report.output
  IO.eprint report.errors
  return report.status.toUInt32

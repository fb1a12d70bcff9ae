import Pug.CommandLine.Report

/-!
# The program

Reads the command line, the standard input and the files it names, has the library do the rest,
and prints the report.
-/

namespace Pug.Main

open CommandLine

/-- How the command is called. -/
def usage : String :=
  "Usage: pug-lex lex [--stdin] [--json] [--syntax loose|js] [--max-depth N] [FILE]\n"

/-- Why something on the disk cannot be read, with the number of the error. -/
def reason : IO.Error → String
  | .permissionDenied _ code details | .inappropriateType _ code details
  | .resourceExhausted _ code details | .invalidArgument _ code details
  | .noFileOrDirectory _ code details | .otherError code details | .resourceBusy code details
  | .hardwareFault code details | .unsupportedOperation code details =>
    details ++ " (os error " ++ toString code ++ ")"
  | e => toString e

/-- A file on the disk. Only templates are read, since nothing else is shown. -/
def loadFile (folder : IO.FS.DirEntry) : IO FileTree := do
  unless FileTree.isTemplate folder.fileName do
    return .file (.error "not a template")
  try
    return .file (.ok (← IO.FS.readBinFile folder.path))
  catch e =>
    return .file (.error (reason e))

mutual

/-- What is in a folder on the disk, which is nothing if it cannot be listed. -/
partial def loadFolder (folder : IO.FS.DirEntry) : IO FileTree := do
  try
    let entries ← (← folder.path.readDir).toList.mapM loadEntry
    return .folder entries
  catch _ =>
    return .folder []

/-- An entry of a folder on the disk, with its name. Links are not followed down. -/
partial def loadEntry (entry : IO.FS.DirEntry) : IO (String × FileTree) := do
  match (← entry.path.symlinkMetadata).type with
  | .dir => return (entry.fileName, ← loadFolder entry)
  | _ => return (entry.fileName, ← loadFile entry)

end

/-- The files at a place on the disk that the command line names. -/
def load (place : IO.FS.DirEntry) : IO (Option FileTree) := do
  if ← place.path.isDir then
    return some (← loadFolder place)
  else if ← place.path.pathExists then
    match (← place.path.metadata).type with
    | .file => return some (← loadFile place)
    | _ => return none
  else
    return none

/-- A time in words. -/
def elapsedInWords (microseconds : Nat) : String :=
  let fixed (n digits : Nat) : String :=
    let fraction := toString (n % Nat.pow 10 digits)
    toString (n / Nat.pow 10 digits) ++ "." ++
      String.ofList (List.replicate (digits - fraction.length) '0') ++ fraction
  if microseconds < 1000 then toString microseconds ++ "μs"
  else if microseconds < 1000000 then fixed ((microseconds + 50) / 100) 1 ++ "ms"
  else fixed ((microseconds + 5000) / 10000) 2 ++ "s"

/-- All bytes up to the end of a stream. -/
partial def readAll (stream : IO.FS.Stream) (bytes : ByteArray) : IO ByteArray := do
  let more ← stream.read 65536
  if more.isEmpty then return bytes else readAll stream (bytes ++ more)

end Pug.Main

open Pug CommandLine Pug.Main in
/-- Carries out the request of the command line. -/
def main (args : List String) : IO UInt32 := do
  let stdout ← IO.getStdout
  let stderr ← IO.getStderr
  match Request.ofArguments? args with
  | none =>
    stderr.putStr usage
    return 2
  | some request =>
    let palette := if ← stderr.isTty then LexError.Palette.terminal else .plain
    let run : Run := ⟨request.settings, palette⟩
    let start ← IO.monoNanosNow
    let report ←
      match request.target with
      | .stdin => do pure (Report.ofStdin run (← readAll (← IO.getStdin) .empty))
      | .path path => do pure (Report.ofPath run path (← load ⟨← IO.currentDir, path⟩))
    stdout.putStr report.output
    stdout.flush
    let elapsed := elapsedInWords (((← IO.monoNanosNow) - start) / 1000)
    stderr.putStr (report.errors palette elapsed)
    return report.status.toUInt32

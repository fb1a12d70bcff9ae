import Pug.CommandLine.FileTree
import Pug.CommandLine.Request
import Pug.Expression.Loose
import Pug.Expression.Script
import Pug.Token.Dump
import Pug.Token.Json

/-!
# Reports

Carrying out a request gives a report: what goes to the standard output, the messages, how many
files were read, and the exit status. A template that cannot be read, or that is wrong, makes a
message and leaves the other templates alone. Only a breakdown of the expression parser ends the
run at once.
-/

namespace Pug.CommandLine

/-- What became of one source. -/
inductive Outcome where
  /-- It was read; this is the tree as text. -/
  | printed (output : String)
  /-- It was not, for this reason. -/
  | failed (message : String)
  /-- The expression parser broke down. -/
  | aborted
deriving DecidableEq, Repr

/-- How many files were read, and how many of them failed. -/
structure Summary where
  files : Nat
  failed : Nat
deriving DecidableEq, Repr

/-- What a request leads to. -/
structure Report where
  output : String
  messages : String
  summary : Option Summary
  status : Nat
deriving DecidableEq, Repr

/-- A request and the colours of the messages. -/
structure Run where
  settings : Settings
  palette : LexError.Palette

namespace Run

/-- Reads a template with an expression parser. -/
def lexWith {E : Type} (run : Run) (parser : ExpressionParser Unit E) (handle : E → List Char)
    (name : String) (source : List Char) : Outcome :=
  match lex parser run.settings.maxDepth source () with
  | .ok t => .printed (if run.settings.json then t.json handle ++ "\n" else t.dump)
  | .error (.error e) =>
    .failed (e.heading run.palette name source ++ e.renderWith run.palette source)
  | .error _ => .aborted

/-- Reads a template. -/
def lexSource (run : Run) (name : String) (source : List Char) : Outcome :=
  match run.settings.dialect with
  | .loose => run.lexWith .loose Shape.json name source
  | .javaScript => run.lexWith .script Script.Node.json name source

/-- The message for a source that cannot be read. -/
def unreadable (name reason : String) : Outcome :=
  .failed ("Error: failed to read " ++ name ++ ": " ++ reason ++ "\n")

/-- Reads a template from bytes, or tells why there are none. The source goes by one name in the
headings of errors and by another where it cannot be read. -/
def lexBytes (run : Run) (name source : String) (content : Except String ByteArray) : Outcome :=
  match content with
  | .error reason => unreadable source reason
  | .ok bytes =>
    match String.fromUTF8? bytes with
    | some text => run.lexSource name text.toList
    | none => unreadable source "stream did not contain valid UTF-8"

/-- Reads what a walk came across. -/
def lexEntry (run : Run) (entry : FileTree.Entry) : Outcome :=
  run.lexBytes entry.path entry.path entry.content

end Run

namespace Report

/-- A report of nothing but a message. -/
def ofMessage (message : String) : Report := ⟨"", message, none, 1⟩

/-- The report of a single source without a summary. -/
def ofOutcome : Outcome → Report
  | .printed output => ⟨output, "", none, 0⟩
  | .failed message => ⟨"", message, none, 1⟩
  | .aborted => ⟨"", "", none, 101⟩

/-- The report of several files, so many of which, and so many failed ones, have been counted. -/
def collect (count : Summary) : List Outcome → Report
  | [] => ⟨"", "", some count, if count.failed = 0 then 0 else 1⟩
  | .printed output :: rest =>
    let r := collect ⟨count.files + 1, count.failed⟩ rest
    { r with output := output ++ r.output }
  | .failed message :: rest =>
    let r := collect ⟨count.files + 1, count.failed + 1⟩ rest
    { r with messages := message ++ r.messages }
  | .aborted :: _ => ofOutcome .aborted

/-- The report of several files. -/
def ofOutcomes (outcomes : List Outcome) : Report :=
  collect ⟨0, 0⟩ outcomes

/-- The report on the templates at and below a folder. -/
def ofFolder (run : Run) (path : String) (tree : FileTree) : Report :=
  match tree.templates path with
  | [] => ofMessage ("No .pug or .jade files found in " ++ path ++ "\n")
  | entries => ofOutcomes (entries.map run.lexEntry)

/-- The report on what was found at a path. -/
def ofPath (run : Run) (path : String) (found : Option FileTree) : Report :=
  match found with
  | none => ofMessage ("Error: " ++ path ++ " does not exist\n")
  | some (.file content) =>
    if FileTree.isTemplate path then ofOutcomes [run.lexBytes path path content]
    else ofMessage ("Error: " ++ path ++ " is not a .pug or .jade file\n")
  | some tree => ofFolder run path tree

/-- The report on the standard input. -/
def ofStdin (run : Run) (bytes : ByteArray) : Report :=
  ofOutcome (run.lexBytes "<stdin>" "stdin" (.ok bytes))

/-- The last line of the messages, for a run that took so long. -/
def summaryLine (palette : LexError.Palette) (elapsed : String) (s : Summary) : String :=
  "\n" ++ palette.strong ++ "Lexed " ++ toString s.files ++
    (if s.files = 1 then " file" else " files") ++
    (if s.failed = 0 then "" else ", " ++ toString s.failed ++ " failed") ++
    " in " ++ elapsed ++ palette.reset ++ "\n"

/-- All messages of a report, for a run that took so long. -/
def errors (r : Report) (palette : LexError.Palette) (elapsed : String) : String :=
  match r.summary with
  | none => r.messages
  | some s => r.messages ++ summaryLine palette elapsed s

end Report

end Pug.CommandLine

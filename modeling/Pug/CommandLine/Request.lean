import Pug.Grammar.Page

/-!
# Requests on the command line

The command `lex` takes one path, and options that may stand before or behind it. A value stands
behind its option, as the next argument or after an `=`. Behind `--` every argument is a path. No
option may be given twice.
-/

namespace Pug.CommandLine

/-- What embedded expressions must be. -/
inductive Dialect where
  /-- Any text with balanced brackets. -/
  | loose
  /-- JavaScript. -/
  | javaScript
deriving DecidableEq, Repr

/-- The arguments read so far. -/
structure Arguments where
  path : Option String
  stdin : Bool
  json : Bool
  dialect : Option Dialect
  maxDepth : Option Nat
deriving DecidableEq, Repr

/-- How sources are to be read and shown. -/
structure Settings where
  json : Bool
  dialect : Dialect
  maxDepth : Nat
deriving DecidableEq, Repr

/-- What the command is to read. -/
inductive Target where
  | stdin
  | path (path : String)
deriving DecidableEq, Repr

/-- A command line that can be carried out. -/
structure Request where
  target : Target
  settings : Settings
deriving DecidableEq, Repr

namespace Arguments

/-- No arguments. -/
def empty : Arguments := ⟨none, false, false, none, none⟩

/-- The dialect of a name. -/
def dialect? (value : String) : Option Dialect :=
  match value with
  | "loose" => some .loose
  | "js" => some .javaScript
  | _ => none

/-- A number below `2 ^ 64` in decimal digits, with an optional `+`. -/
def number? (value : String) : Option Nat :=
  let digits := match value.toList with
    | '+' :: digits => digits
    | digits => digits
  if digits.isEmpty || !digits.all Char.isDigit then none
  else
    let n := digits.foldl (fun n c ↦ 10 * n + (c.toNat - '0'.toNat)) 0
    if n < UInt64.size then some n else none

/-- Adds a path, which must be the first and not empty. -/
def addPath (a : Arguments) (path : String) : Option Arguments :=
  if path.isEmpty || a.path.isSome then none else some { a with path := some path }

/-- Adds an option that has no value. -/
def addFlag (a : Arguments) (option : String) : Option Arguments :=
  match option with
  | "--stdin" => if a.stdin then none else some { a with stdin := true }
  | "--json" => if a.json then none else some { a with json := true }
  | _ => none

/-- The options that have a value. -/
def takesValue (option : String) : Bool :=
  option == "--syntax" || option == "--max-depth"

/-- Adds an option with its value. -/
def addValue (a : Arguments) (option value : String) : Option Arguments :=
  match option, a.dialect, a.maxDepth with
  | "--syntax", none, _ => (dialect? value).map (fun d ↦ { a with dialect := some d })
  | "--max-depth", _, none => (number? value).map (fun n ↦ { a with maxDepth := some n })
  | _, _, _ => none

/-- An argument is an option if it starts with a hyphen that something follows. -/
def isOption (argument : String) : Bool :=
  argument.toList.head? == some '-' && argument.length != 1

/-- An option at its first `=`, if it has one. -/
def splitOption (argument : String) : String × Option String :=
  let option := argument.toList.takeWhile (· != '=')
  match argument.toList.drop option.length with
  | [] => (argument, none)
  | _ :: value => (String.ofList option, some (String.ofList value))

/-- Reads arguments one by one. There is no result if one of them is wrong. -/
def read : Arguments → List String → Option Arguments
  | a, [] => some a
  | a, argument :: rest =>
    if argument == "--" then rest.foldlM addPath a
    else if isOption argument then
      match splitOption argument with
      | (option, some value) => (addValue a option value).bind (read · rest)
      | (option, none) =>
        if takesValue option then
          match rest with
          | [] => none
          | value :: rest =>
            if isOption value then none else (addValue a option value).bind (read · rest)
        else (addFlag a option).bind (read · rest)
    else (addPath a argument).bind (read · rest)

/-- The request of some arguments: they must name a path or the standard input, which comes first.
-/
def request? (a : Arguments) : Option Request :=
  let settings : Settings := ⟨a.json, a.dialect.getD .loose, a.maxDepth.getD defaultMaxDepth⟩
  if a.stdin then some ⟨.stdin, settings⟩ else a.path.map (⟨.path ·, settings⟩)

end Arguments

/-- The request of a command line, if it is one. -/
def Request.ofArguments? : List String → Option Request
  | "lex" :: rest => (Arguments.empty.read rest).bind Arguments.request?
  | _ => none

end Pug.CommandLine

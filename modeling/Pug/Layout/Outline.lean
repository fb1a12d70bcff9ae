import Pug.Token.Basic
import Pug.Diagnostic

/-!
# Outlines

An outline collects the lines of a template as they are read. A line at some level lies under the
latest line one level above; opening it closes the levels from its own on. A line may be
*expanded* by a line that follows it on the same line of the template: that one lies under what
the first says, and takes over its level. A line may also be *appended* to another without
touching the levels.

Lines are numbered from one in the order in which they are added, and zero stands for the whole
template. A line is added after the line it lies under, so folding the lines from the last to the
first completes each before it is needed.
-/

namespace Pug

/-- The number of a line of an outline, zero for the whole template. -/
abbrev LineId := Nat

namespace Outline

/-- Where the lines under a line go. -/
inductive Attach where
  /-- Behind what the line says. -/
  | line
  /-- Under what the line says. -/
  | payload
deriving DecidableEq, Repr

/-- A line of an outline. -/
structure Entry (E : Type) where
  token : Token E
  /-- The line it lies under. -/
  parent : LineId
  /-- Where the lines under it go. -/
  attach : Attach

variable {E : Type}

/-- Adds children behind those that a token has. -/
def extend (t : Token E) (nested : List (Token E)) : Token E :=
  { t with children := t.children ++ nested }

/-- Adds children to what a line says: to the tag if it is a wrapped tag. -/
def extendPayload (payload : Token E) (nested : List (Token E)) : Token E :=
  match payload.kind, payload.children with
  | .lineData, tag :: others => { payload with children := extend tag nested :: others }
  | _, _ => extend payload nested

/-- A line with the lines under it in their place. -/
def Entry.close (e : Entry E) (nested : List (Token E)) : Token E :=
  match e.attach, e.token.children with
  | .payload, payload :: others =>
    { e.token with children := extendPayload payload nested :: others }
  | _, _ => extend e.token nested

end Outline

/-- The lines of a template read so far. -/
structure Outline (E : Type) where
  /-- The lines in the order in which they were added. -/
  entries : Array (Outline.Entry E)
  /-- The open line of each level, outermost first. -/
  openLines : List LineId
  /-- The number of levels that may be open. -/
  maxDepth : Nat

namespace Outline

variable {E : Type}

/-- The outline of an empty template. -/
def empty (maxDepth : Nat) : Outline E := ⟨#[], [], maxDepth⟩

/-- What is wrong with a line at `level`, if anything: it may close any number of levels but open
one at most. -/
def checkLevel (o : Outline E) (level : Nat) : Option Problem :=
  if o.maxDepth ≤ level then some .indentationTooDeep
  else if o.openLines.length < level then some .invalidIndentationJump
  else none

/-- The line that a line at `level` lies under. -/
def parentAt (o : Outline E) : Nat → LineId
  | 0 => 0
  | level + 1 => o.openLines.getD level 0

/-- Whether a line has been added; the whole template counts as one. -/
def has (o : Outline E) (id : LineId) : Bool :=
  id ≤ o.entries.size

/-- Adds a line under another and tells its number. -/
def add (o : Outline E) (parent : LineId) (line : Token E) : Outline E × LineId :=
  let id := o.entries.size + 1
  ({ o with entries := o.entries.push ⟨line, parent, .line⟩ }, id)

/-- Adds a line at a level, as the innermost open line. -/
def openLine (o : Outline E) (level : Nat) (line : Token E) :
    Except Problem (Outline E × LineId) :=
  match o.checkLevel level with
  | some problem => .error problem
  | none =>
    let around := o.openLines.take level
    let (o', id) := o.add (o.parentAt level) line
    .ok ({ o' with openLines := around ++ [id] }, id)

/-- Has the lines under a line go under what it says. -/
def attachToPayload (entries : Array (Entry E)) : LineId → Array (Entry E)
  | 0 => entries
  | n + 1 => entries.modify n (fun e ↦ { e with attach := .payload })

/-- The open lines when `id` takes over from `owner`, if that is the innermost of them. -/
def takeOver (openLines : List LineId) (owner id : LineId) : List LineId :=
  if openLines.getLast? = some owner then openLines.dropLast ++ [id] else openLines

/-- Adds a line that follows `owner` on the same line of the template. It lies under what the owner
says and takes over the owner's level. -/
def expand (o : Outline E) (owner : LineId) (line : Token E) : Outline E × LineId :=
  let openLines := o.openLines
  let (o', id) := o.add owner line
  ({ o' with
      entries := attachToPayload o'.entries owner
      openLines := takeOver openLines owner id }, id)

/-- Adds a line under `owner` without touching the levels. -/
def append (o : Outline E) (owner : LineId) (line : Token E) : Outline E × LineId :=
  o.add owner line

@[simp] theorem size_add (o : Outline E) (parent : LineId) (line : Token E) :
    (o.add parent line).1.entries.size = o.entries.size + 1 := by
  simp [add]

@[simp] theorem openLines_add (o : Outline E) (parent : LineId) (line : Token E) :
    (o.add parent line).1.openLines = o.openLines := rfl

/-- Opening a line at a level leaves one open line for each level up to that one. -/
theorem length_openLines_of_openLine {o o' : Outline E} {level : Nat} {line : Token E}
    {id : LineId} (h : o.openLine level line = .ok (o', id)) :
    o'.openLines.length = level + 1 := by
  unfold openLine at h
  split at h
  · contradiction
  · rename_i hc
    have hl : level ≤ o.openLines.length := by
      unfold checkLevel at hc
      split at hc
      · contradiction
      · split at hc
        · contradiction
        · omega
    cases h
    simp [hl]

/-- Folds the first `n` lines, last to first, into the lines that lie under each line and under
the whole template. -/
def fold (entries : Array (Entry E)) : Nat → Array (List (Token E)) → Array (List (Token E))
  | 0, nested => nested
  | n + 1, nested =>
    match entries[n]? with
    | none => fold entries n nested
    | some e =>
      let line := e.close (nested.getD (n + 1) [])
      fold entries n (nested.modify e.parent (line :: ·))

/-- The tree of an outline. -/
def finish (o : Outline E) : Token E :=
  let nested := fold o.entries o.entries.size (Array.replicate (o.entries.size + 1) [])
  ⟨.root, "", ⟨0, 0⟩, none, nested.getD 0 []⟩

end Outline

end Pug

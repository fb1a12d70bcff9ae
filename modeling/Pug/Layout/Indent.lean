import Pug.Text.Blank

/-!
# Indentation

The first indented line of a template fixes the *unit* of indentation: one tab, or the spaces that
it starts with. From then on a line's level is the number of units before it, and anything but a
whole number of units is an error. A template without indented lines fixes no unit.

The *run* of a line is the spacing it starts with.
-/

namespace Pug

/-- What one level of indentation is written as. -/
inductive IndentUnit where
  /-- One tab. -/
  | tab
  /-- A number of spaces. -/
  | spaces (width : Nat)
deriving DecidableEq, Repr

namespace IndentUnit

/-- The character a unit is made of. -/
def char : IndentUnit → Char
  | tab => '\t'
  | spaces _ => ' '

/-- The number of characters of a unit. -/
def width : IndentUnit → Nat
  | tab => 1
  | spaces n => n

/-- A number of spaces in words. -/
def spacesInWords (n : Nat) : String :=
  if n = 1 then "1 space" else toString n ++ " spaces"

/-- A unit in words. -/
def inWords : IndentUnit → String
  | tab => "tabs"
  | spaces n => spacesInWords n

/-- The unit that a first indented line fixes. -/
def ofRun (run : List Char) : IndentUnit :=
  if run.head? = some '\t' then tab else spaces (run.takeWhile (· == ' ')).length

/-- The indentation of a level. -/
def margin (unit : IndentUnit) (level : Nat) : List Char :=
  List.replicate (level * unit.width) unit.char

@[simp] theorem margin_zero (unit : IndentUnit) : unit.margin 0 = [] := by
  simp [margin]

/-- A unit fixed by a run that starts with spacing is at least one character wide. -/
theorem width_ofRun_pos {c : Char} (h : Text.isSpacing c = true) (run : List Char) :
    0 < (ofRun (c :: run)).width := by
  simp only [Text.isSpacing, Bool.or_eq_true, beq_iff_eq] at h
  rcases h with rfl | rfl <;> simp [ofRun, width]

end IndentUnit

/-- An indentation that is no whole number of units. -/
structure Misfit where
  /-- The first byte of the run that does not fit. -/
  index : Nat
  /-- What unit the template uses. -/
  help : String
deriving DecidableEq, Repr

namespace Indent

/-- The unit that is known once a line with this run has been read. -/
def learn (known : Option IndentUnit) (run : List Char) : Option IndentUnit :=
  if run.isEmpty then known else some (known.getD (.ofRun run))

/-- The number of units in a run. -/
def units (unit : IndentUnit) (run : List Char) : Except Misfit Nat :=
  match run.findIdx? (· != unit.char) with
  | some index => .error ⟨index, "indentation uses " ++ unit.inWords⟩
  | none =>
    if run.length % unit.width = 0 then .ok (run.length / unit.width)
    else
      .error ⟨run.length, "indentation uses " ++ unit.inWords ++ "; this line has " ++
        IndentUnit.spacesInWords run.length⟩

/-- A margin is as many units as its level. -/
theorem units_margin {unit : IndentUnit} (h : 0 < unit.width) (level : Nat) :
    units unit (unit.margin level) = .ok level := by
  simp [units, IndentUnit.margin, Nat.mul_div_cancel level h]

/-- The level of a line with this run, and the unit known from then on. An unindented line has
level zero whatever the unit. -/
def level (known : Option IndentUnit) (run : List Char) :
    Except Misfit Nat × Option IndentUnit :=
  match learn known run with
  | none => (.ok 0, none)
  | some unit => (if run.isEmpty then .ok 0 else units unit run, some unit)

/-- The indentation of `level` if the run starts with it, and the unit known from then on. An
unindented line starts with none. -/
def marginOf (known : Option IndentUnit) (level : Nat) (run : List Char) :
    Option (List Char) × Option IndentUnit :=
  match learn known run with
  | none => (none, none)
  | some unit =>
    (if !run.isEmpty && (unit.margin level).isPrefixOf run then some (unit.margin level) else none,
      some unit)

end Indent

end Pug

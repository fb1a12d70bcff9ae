/-!
# Blanks, line breaks and byte lengths

Three notions of empty space occur in a template. *Spacing* is a space or a tab: it indents lines
and separates what stands on one line. A *break* character ends a line. A *blank* is any character
of the Unicode property `White_Space`, and is what trimming removes.

Texts are lists of characters; their length in bytes is that of their UTF-8 form.
-/

namespace Pug.Text

/-- A space or a tab. -/
def isSpacing (c : Char) : Bool :=
  c == ' ' || c == '\t'

/-- A line feed or a carriage return. -/
def isBreak (c : Char) : Bool :=
  c == '\n' || c == '\r'

/-- The characters of the Unicode property `White_Space`. -/
def isBlank (c : Char) : Bool :=
  let n := c.toNat
  (9 ≤ n && n ≤ 13) || n == 0x20 || n == 0x85 || n == 0xA0 || n == 0x1680 ||
    (0x2000 ≤ n && n ≤ 0x200A) || n == 0x2028 || n == 0x2029 || n == 0x202F || n == 0x205F ||
    n == 0x3000

/-- Drops the blanks at the front. -/
def trimStart (cs : List Char) : List Char :=
  cs.dropWhile isBlank

/-- Drops the blanks at the end. -/
def trimEnd (cs : List Char) : List Char :=
  (cs.reverse.dropWhile isBlank).reverse

/-- Drops the blanks at both ends. -/
def trim (cs : List Char) : List Char :=
  trimEnd (trimStart cs)

theorem isBlank_of_isSpacing {c : Char} (h : isSpacing c = true) : isBlank c = true := by
  simp only [isSpacing, Bool.or_eq_true, beq_iff_eq] at h
  rcases h with rfl | rfl <;> rfl

theorem isBlank_of_isBreak {c : Char} (h : isBreak c = true) : isBlank c = true := by
  simp only [isBreak, Bool.or_eq_true, beq_iff_eq] at h
  rcases h with rfl | rfl <;> rfl

/-- The line breaks and the spacing make up what may separate the entries of a list. -/
def isSeparator (c : Char) : Bool :=
  isSpacing c || isBreak c

/-- Whether a line ends after `c`, when `next` follows it: a carriage return before a line feed
leaves the end of the line to the line feed. -/
def endsLine (c : Char) (next : List Char) : Bool :=
  c == '\n' || (c == '\r' && next.head? != some '\n')

/-- The part of a text before its first break character. -/
def firstLine (cs : List Char) : List Char :=
  cs.takeWhile (fun c ↦ !isBreak c)

/-- The number of bytes of the UTF-8 form of a text. -/
def byteLength : List Char → Nat
  | [] => 0
  | c :: cs => c.utf8Size + byteLength cs

@[simp] theorem byteLength_nil : byteLength [] = 0 := rfl

@[simp] theorem byteLength_cons (c : Char) (cs : List Char) :
    byteLength (c :: cs) = c.utf8Size + byteLength cs := rfl

@[simp] theorem byteLength_append (cs ds : List Char) :
    byteLength (cs ++ ds) = byteLength cs + byteLength ds := by
  induction cs with
  | nil => simp
  | cons c cs ih => simp [ih, Nat.add_assoc]

/-- The longest run of whole characters at the front that takes at most `n` bytes. -/
def firstBytes : Nat → List Char → List Char
  | _, [] => []
  | n, c :: cs => if c.utf8Size ≤ n then c :: firstBytes (n - c.utf8Size) cs else []

/-- Cutting a text at the byte length of its own beginning gives that beginning. -/
@[simp] theorem firstBytes_append (cs ds : List Char) :
    firstBytes (byteLength cs) (cs ++ ds) = cs := by
  induction cs with
  | nil =>
    cases ds with
    | nil => rfl
    | cons d ds => simp [firstBytes, Nat.not_le.2 d.utf8Size_pos]
  | cons c cs ih => simp [firstBytes, ih]

end Pug.Text

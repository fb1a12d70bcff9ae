import Pug.Proofs.Landing.Page

/-!
# Diagnostics point into the line they show

An error is shown as the line on which it was found, a caret below the column, and a help if there is
one. It was found at a foothold, so the column is one of the line, or the one behind it, and the
padding before the caret is as wide as what stands above it, tabs below tabs. Neither the line nor
what is said about it breaks a line, so nothing but the ends of these two or three lines does.
-/

namespace Pug

open Text

namespace LexError

/-- What stands before the line that is shown. -/
def label (e : LexError) (source : List Char) : List Char :=
  ("-> " ++ toString (e.position source).line ++ ": ").toList

/-- What stands before the caret, below `shown` characters of a label and the first characters of a
line. -/
structure Pads (text : List Char) (shown columns : Nat) (pad : List Char) : Prop where
  length : pad.length = shown + columns
  /-- Below the line a tab stands below each tab, and else there is nothing but spaces. -/
  columns : ∀ i < columns, pad[shown + i]? = some (if text[i]? = some '\t' then '\t' else ' ')
  label : ∀ i < shown, pad[i]? = some ' '

/-- The lines by which an error is shown. -/
def rows (e : LexError) (source pad : List Char) : List (List Char) :=
  (e.label source ++ (e.position source).text) :: (pad ++ "^ ".toList ++ e.problem.message.toList) ::
    (e.help.map fun help ↦ "help: ".toList ++ help.toList).toList

/-- An error that points into the line it shows. -/
structure PointsInto (source : List Char) (e : LexError) : Prop where
  offset_le : e.offset ≤ byteLength source
  /-- The offset is a boundary, and no line break has it inside. -/
  boundary : ∃ before rest, source = before ++ rest ∧ byteLength before = e.offset ∧
    (before.getLast? = some '\r' → rest.head? ≠ some '\n')
  one_le_column : 1 ≤ (e.position source).column
  column_le : (e.position source).column ≤ (e.position source).text.length + 1
  /-- The error is shown in lines that no line break is in. -/
  shown : ∃ pad, Pads (e.position source).text (e.label source).length
      ((e.position source).column - 1) pad ∧
    (e.render source).toList = (e.rows source pad).flatMap (· ++ ['\n']) ∧
    ∀ row ∈ e.rows source pad, ∀ x ∈ row, isBreak x = false

variable {e : LexError} {source text pad : List Char}

theorem oneLine_message (problem : Problem) : OneLine problem.message := by
  cases problem with
  | invalidExpression site => cases site <;> exact .of_any (by decide)
  | _ => exact .of_any (by decide)

theorem oneLine_label (e : LexError) (source : List Char) :
    ∀ x ∈ e.label source, isBreak x = false :=
  ((OneLine.of_any (by decide)).append (.toString _)).append (.of_any (by decide))

theorem length_padding (text : List Char) : (padding text).length = text.length :=
  List.length_map _

/-- The padding below the first characters of a line. -/
theorem padding_pads {columns : Nat} (h : columns ≤ text.length) (shown : Nat) :
    Pads text shown columns (List.replicate shown ' ' ++ padding (text.take columns)) := by
  have hlabel : (List.replicate shown ' ').length = shown := List.length_replicate
  refine ⟨?_, fun i hi ↦ ?_, fun i hi ↦ ?_⟩
  · rw [List.length_append, hlabel, length_padding, List.length_take, Nat.min_eq_left h]
  · have hi' : i < text.length := hi.trans_le h
    rw [List.getElem?_append_right (by rw [hlabel]; exact Nat.le_add_right _ _), hlabel,
      Nat.add_sub_cancel_left, padding, List.getElem?_map, List.getElem?_take_of_lt hi,
      List.getElem?_eq_getElem hi']
    simp only [Option.map_some, Option.some.injEq, beq_iff_eq]
  · rw [List.getElem?_append_left (by rwa [hlabel]), List.getElem?_replicate_of_lt hi]

theorem unbroken_of_pads {shown columns : Nat} (h : Pads text shown columns pad) :
    ∀ x ∈ pad, isBreak x = false := by
  intro x hx
  obtain ⟨i, hi, rfl⟩ := List.mem_iff_getElem.1 hx
  rw [h.length] at hi
  by_cases hshown : i < shown
  · have hspace := h.label i hshown
    rw [List.getElem?_eq_getElem (h.length ▸ hi), Option.some.injEq] at hspace
    rw [hspace]
    rfl
  · obtain ⟨j, rfl⟩ := Nat.exists_eq_add_of_le (Nat.not_lt.1 hshown)
    have hcolumn := h.columns j (Nat.lt_of_add_lt_add_left hi)
    rw [List.getElem?_eq_getElem (h.length ▸ hi), Option.some.injEq] at hcolumn
    rw [hcolumn]
    split <;> rfl

theorem toList_render (e : LexError) (source : List Char) : (e.render source).toList =
    (e.rows source (List.replicate (e.label source).length ' ' ++
      padding ((e.position source).text.take ((e.position source).column - 1)))).flatMap
        (· ++ ['\n']) := by
  unfold render renderWith rows label
  dsimp only
  generalize "-> " ++ toString (e.position source).line ++ ": " = shown
  cases e.help with
  | none => simp [Palette.plain, ← String.length_toList]
  | some help => simp [Palette.plain, ← String.length_toList]

theorem unbroken_rows (hhelp : ∀ help ∈ e.help, OneLine help)
    (hpad : ∀ x ∈ pad, isBreak x = false) :
    ∀ row ∈ e.rows source pad, ∀ x ∈ row, isBreak x = false := by
  have htext := (Position.exact source e.offset).unbroken
  refine List.forall_mem_cons.2 ⟨List.forall_mem_append.2 ⟨oneLine_label e source, htext⟩,
    List.forall_mem_cons.2 ⟨?_, fun row hrow ↦ ?_⟩⟩
  · refine List.forall_mem_append.2 ⟨List.forall_mem_append.2 ⟨hpad, ?_⟩, oneLine_message _⟩
    simp [isBreak]
  · obtain ⟨help, hmem, rfl⟩ := Option.map_eq_some_iff.1 (Option.mem_toList.1 hrow)
    refine List.forall_mem_append.2 ⟨?_, hhelp help hmem⟩
    simp [isBreak]

theorem pointsInto_of_wellPlaced (h : WellPlaced source e) : PointsInto source e := by
  obtain ⟨c, hc, hoffset⟩ := h.foothold
  obtain ⟨hone, hcolumn⟩ := hc.column_le
  obtain ⟨before, hl, hbreak⟩ := hc
  have hbefore : c.offset = byteLength before := by simpa [Cursor.start] using hl.2
  have hsource : source = before ++ c.rest := hl.1
  rw [hoffset] at hone hcolumn hbefore
  have hpads := padding_pads (Nat.sub_le_of_le_add hcolumn) (e.label source).length
  exact {
    offset_le := by
      rw [hsource, byteLength_append, hbefore]
      exact Nat.le_add_right _ _
    boundary := ⟨before, c.rest, hsource, hbefore.symm, hbreak⟩
    one_le_column := hone
    column_le := hcolumn
    shown := ⟨_, hpads, toList_render e source, unbroken_rows h.help (unbroken_of_pads hpads)⟩ }

end LexError

/-- An error by which the reading of a template ends points into the line that it shows. -/
theorem pointsInto_of_lex {E : Type} (shape : E → Shape) (check : Mode → List Char → Option E)
    (maxDepth : Nat) {source : List Char} {e : LexError}
    (h : lex (.checked shape check) maxDepth source () = .error (.error e)) :
    e.PointsInto source :=
  LexError.pointsInto_of_wellPlaced ((accountable_of_lex h).error e rfl)

/-- A line behind a tab that starts with no mark that is known: the tab stands before the caret. -/
theorem pointsInto_of_lex_unknown :
    lex .loose 32 ['p', '\n', '\t', '%'] () = .error (.error ⟨.unknownLineType, 3, none⟩) ∧
      LexError.PointsInto ['p', '\n', '\t', '%'] ⟨.unknownLineType, 3, none⟩ :=
  ⟨rfl, pointsInto_of_lex id (fun _ text ↦ some (Shape.ofText text)) 32 rfl⟩

end Pug

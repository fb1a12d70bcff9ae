import Mathlib
import Pug.Proofs.Source.Path

/-!
# Texts written with other line endings

A text may end its lines by `\n`, by a lone `\r` or by `\r\n`. Writing a text with an ending
replaces each `\n` by it. What a text has on its lines, its blanks and where they are cut do not
depend on the ending.
-/

namespace Pug

open Text

/-- What a line ends with. -/
inductive LineEnding where
  | lf
  | cr
  | crlf
deriving DecidableEq, Repr

namespace LineEnding

/-- The line break that an ending is. -/
def chars : LineEnding → List Char
  | lf => ['\n']
  | cr => ['\r']
  | crlf => ['\r', '\n']

/-- A text with each `\n` replaced by an ending. -/
def write (e : LineEnding) (cs : List Char) : List Char :=
  cs.flatMap fun c ↦ if c = '\n' then e.chars else [c]

variable {e : LineEnding} {c : Char} {cs ds : List Char}

@[simp] theorem write_nil : e.write [] = [] := rfl

theorem write_cons : e.write (c :: cs) = (if c = '\n' then e.chars else [c]) ++ e.write cs :=
  List.flatMap_cons ..

theorem write_cons_feed : e.write ('\n' :: cs) = e.chars ++ e.write cs := by
  rw [write_cons, if_pos rfl]

theorem write_cons_of_ne (h : c ≠ '\n') : e.write (c :: cs) = c :: e.write cs := by
  rw [write_cons, if_neg h, List.singleton_append]

@[simp] theorem write_append : e.write (cs ++ ds) = e.write cs ++ e.write ds :=
  List.flatMap_append ..

theorem isBreak_of_mem_chars (h : c ∈ e.chars) : isBreak c = true := by
  cases e <;> simp only [chars, List.mem_cons, List.not_mem_nil, or_false] at h
  · rw [h]; rfl
  · rw [h]; rfl
  · rcases h with rfl | rfl <;> rfl

/-- An ending starts with a break character. -/
theorem exists_chars_eq_cons (e : LineEnding) : ∃ x xs, e.chars = x :: xs ∧ isBreak x = true := by
  cases e
  · exact ⟨'\n', [], rfl, rfl⟩
  · exact ⟨'\r', [], rfl, rfl⟩
  · exact ⟨'\r', ['\n'], rfl, rfl⟩

@[simp] theorem write_lf (cs : List Char) : lf.write cs = cs := by
  induction cs with
  | nil => rfl
  | cons c cs ih =>
    rw [write_cons, ih]
    split
    · rename_i hc
      rw [hc]
      rfl
    · rfl

/-- A text without line feeds is written as it is. -/
theorem write_eq_self (h : '\n' ∉ cs) : e.write cs = cs := by
  induction cs with
  | nil => rfl
  | cons c cs ih =>
    rw [List.mem_cons, not_or] at h
    rw [write_cons_of_ne (Ne.symm h.1), ih h.2]

theorem write_of_unbroken (h : ∀ x ∈ cs, isBreak x = false) : e.write cs = cs :=
  write_eq_self fun hn ↦ absurd (h _ hn) (by decide)

/-- Where line feeds are written otherwise, none is in front. -/
theorem head?_write_ne (h : e ≠ .lf) : (e.write cs).head? ≠ some '\n' := by
  cases cs with
  | nil => nofun
  | cons c cs =>
    by_cases hc : c = '\n'
    · rw [hc, write_cons_feed]
      cases e with
      | lf => exact absurd rfl h
      | cr => nofun
      | crlf => nofun
    · rw [write_cons_of_ne hc]
      exact fun hx ↦ hc (Option.some.inj hx)

@[simp] theorem write_eq_nil : e.write cs = [] ↔ cs = [] := by
  cases cs with
  | nil => simp
  | cons c cs =>
    obtain ⟨x, xs, hx, -⟩ := e.exists_chars_eq_cons
    by_cases hc : c = '\n'
    · rw [hc, write_cons_feed, hx]
      simp
    · rw [write_cons_of_ne hc]
      simp

@[simp] theorem isEmpty_write : (e.write cs).isEmpty = cs.isEmpty := by
  rw [Bool.eq_iff_iff, List.isEmpty_iff, List.isEmpty_iff, write_eq_nil]

/-- Lone returns take as many bytes as line feeds. -/
@[simp] theorem byteLength_write_cr (cs : List Char) :
    byteLength (cr.write cs) = byteLength cs := by
  induction cs with
  | nil => rfl
  | cons c cs ih =>
    by_cases hc : c = '\n'
    · rw [hc, write_cons_feed, byteLength_append, ih]
      rfl
    · rw [write_cons_of_ne hc, byteLength_cons, byteLength_cons, ih]

section Rows

variable {p : Char → Bool}

/-- A row of characters that a line break ends. -/
theorem takeWhile_write_of_not (hn : p '\n' = false) (hr : p '\r' = false) :
    (e.write cs).takeWhile p = cs.takeWhile p := by
  induction cs with
  | nil => rfl
  | cons c cs ih =>
    by_cases hc : c = '\n'
    · rw [hc, write_cons_feed, List.takeWhile_cons, if_neg (by rw [hn]; decide)]
      cases e <;> simp [chars, hn, hr]
    · rw [write_cons_of_ne hc, List.takeWhile_cons, List.takeWhile_cons, ih]

/-- What follows such a row. -/
theorem dropWhile_write_of_not (hn : p '\n' = false) (hr : p '\r' = false) :
    (e.write cs).dropWhile p = e.write (cs.dropWhile p) := by
  induction cs with
  | nil => rfl
  | cons c cs ih =>
    by_cases hc : c = '\n'
    · rw [hc, List.dropWhile_cons, if_neg (by rw [hn]; decide), write_cons_feed]
      cases e <;> simp [chars, hn, hr]
    · rw [write_cons_of_ne hc, List.dropWhile_cons, List.dropWhile_cons, ih]
      split
      · rfl
      · rw [write_cons_of_ne hc]

theorem firstLine_write : firstLine (e.write cs) = firstLine cs :=
  takeWhile_write_of_not rfl rfl

theorem chars_takeWhile (hn : p '\n' = true) (hr : p '\r' = true) : ∀ x ∈ e.chars, p x = true := by
  cases e <;> simp [chars, hn, hr]

/-- A row of characters that goes on over line breaks. -/
theorem takeWhile_write (hn : p '\n' = true) (hr : p '\r' = true) :
    (e.write cs).takeWhile p = e.write (cs.takeWhile p) := by
  induction cs with
  | nil => rfl
  | cons c cs ih =>
    by_cases hc : c = '\n'
    · rw [hc, write_cons_feed, List.takeWhile_append_of_pos (chars_takeWhile hn hr), ih,
        List.takeWhile_cons, if_pos hn, write_cons_feed]
    · rw [write_cons_of_ne hc, List.takeWhile_cons, List.takeWhile_cons]
      split
      · rw [ih, write_cons_of_ne hc]
      · rfl

theorem dropWhile_write (hn : p '\n' = true) (hr : p '\r' = true) :
    (e.write cs).dropWhile p = e.write (cs.dropWhile p) := by
  induction cs with
  | nil => rfl
  | cons c cs ih =>
    by_cases hc : c = '\n'
    · rw [hc, write_cons_feed, List.dropWhile_append_of_pos (chars_takeWhile hn hr), ih,
        List.dropWhile_cons, if_pos hn]
    · rw [write_cons_of_ne hc, List.dropWhile_cons, List.dropWhile_cons]
      split
      · exact ih
      · rw [write_cons_of_ne hc]

end Rows

theorem trimStart_write : trimStart (e.write cs) = e.write (trimStart cs) :=
  dropWhile_write rfl rfl

/-- Blanks at the end of a text are trimmed. -/
theorem trimEnd_append_blanks {blanks : List Char} (h : ∀ x ∈ blanks, isBlank x = true) :
    trimEnd (cs ++ blanks) = trimEnd cs := by
  rw [trimEnd, List.reverse_append,
    List.dropWhile_append_of_pos fun x hx ↦ h x (List.mem_reverse.1 hx), ← trimEnd]

/-- A text that ends in no blank is not trimmed. -/
theorem trimEnd_append_singleton (h : isBlank c = false) : trimEnd (cs ++ [c]) = cs ++ [c] := by
  rw [trimEnd, List.reverse_append, List.reverse_singleton, List.singleton_append,
    List.dropWhile_cons, if_neg (by rw [h]; decide), List.reverse_cons, List.reverse_reverse]

theorem trimEnd_write : trimEnd (e.write cs) = e.write (trimEnd cs) := by
  induction cs using List.reverseRecOn with
  | nil => rfl
  | append_singleton cs c ih =>
    rw [write_append]
    by_cases hc : isBlank c = true
    · have hblank : ∀ x ∈ e.write [c], isBlank x = true := by
        by_cases hn : c = '\n'
        · rw [hn, write_cons_feed, write_nil, List.append_nil]
          exact fun x hx ↦ isBlank_of_isBreak (isBreak_of_mem_chars hx)
        · rw [write_cons_of_ne hn, write_nil]
          simpa using hc
      rw [trimEnd_append_blanks hblank, ih, trimEnd_append_blanks (by simpa using hc)]
    · rw [Bool.not_eq_true] at hc
      have hn : c ≠ '\n' := by
        rintro rfl
        exact absurd hc (by decide)
      rw [trimEnd_append_singleton hc, write_append, write_cons_of_ne hn, write_nil,
        trimEnd_append_singleton hc]

theorem trim_write : trim (e.write cs) = e.write (trim cs) := by
  rw [trim, trim, trimStart_write, trimEnd_write]

end LineEnding

end Pug

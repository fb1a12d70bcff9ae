import Pug.Proofs.Source.Path
import Pug.Proofs.Expression.Delimited

/-!
# Phrases

A *phrase* is a text that is one expression from its first character to its last. Written into a
template it stays the expression that it is if something stands behind it at which the scan stops:
the end of the template or of the line, a closing bracket, and behind the value of an attribute also
a comma or spacing that nothing bridges.

None of what ends a phrase goes on with a word or changes what a `?` means, so the scan comes to the
end of the phrase as it does on the phrase alone, and stops there.
-/

namespace Pug

open Text

/-- A text that is an expression as a whole, without blanks around it. -/
structure Phrase (mode : Mode) where
  text : List Char
  trimmed : trim text = text
  whole : extent mode text = .upTo text

namespace Extent

/-- The expression `text` ends before what stands behind it. -/
def EndsAt (mode : Mode) (text : List Char) : List Char → Prop
  | [] => True
  | c :: rest => isBreak c = true ∨ isCloser c = true ∨ mode = .attributeValue ∧
      (c = ',' ∨ isSpacing c = true ∧ joint text.reverse rest = .apart)

section

variable {mode : Mode} {text others : List Char} {c : Char}

theorem EndsAt.detached (h : EndsAt mode text others) : Detached others := by
  cases others with
  | nil =>
    rintro c ⟨⟩
  | cons c rest =>
    rintro _ ⟨⟩
    simp only [EndsAt, isBreak, isCloser, isSpacing, Bool.or_eq_true, beq_iff_eq] at h
    rcases h with (rfl | rfl) | (((rfl | rfl) | rfl) | ⟨-, rfl | ⟨rfl | rfl, -⟩⟩) <;> decide

/-- A closing bracket ends any expression. -/
theorem EndsAt.of_closer {x : Char} {w : List Char} {b d : Cursor} (h : b.Leads (x :: w) d)
    (hx : isCloser x = true) : EndsAt mode text b.rest := by
  rw [h.1]
  exact .inr (.inl hx)

end

namespace Scan

variable {mode : Mode} {s t : Scan} {c : Char} {rest others text : List Char}

/-- A scan that has read a phrase stops at what ends it. -/
theorem read_eq_stop (h : Done text t) (hend : EndsAt mode text (c :: rest)) :
    t.read mode c rest = .stop := by
  rcases hend with hb | hcl | ⟨rfl, rfl | ⟨hsp, hj⟩⟩
  · rw [read_of_break h.quote hb]
    exact if_pos h.outside
  · rw [read_of_closer h.quote hcl, readCloser, h.closers]
  · rw [read_of_single h.quote ⟨rfl, rfl, rfl, rfl⟩ rfl, if_pos h.outside]
    rfl
  · rw [read_of_spacing h.quote hsp, readSpacing, if_pos (by simp [h.outside, h.kept_ne_nil]),
      h.kept, hj]

end Scan

end Extent

namespace Phrase

open Extent Scan

variable {mode : Mode} (p : Phrase mode)

theorem ne_nil : p.text ≠ [] := by
  intro h
  have hwhole := p.whole
  rw [h] at hwhole
  contradiction

theorem takeWhile_isBlank : p.text.takeWhile isBlank = [] := by
  obtain ⟨blanks, h, -⟩ := exists_eq_trim_append p.text
  rw [p.trimmed] at h
  have hlength := congrArg List.length h
  rw [List.length_append, List.length_append] at hlength
  exact List.length_eq_zero_iff.1 (by omega)

/-- A phrase starts with no blank. -/
theorem isBlank_head : ∀ c ∈ p.text.head?, isBlank c = false := by
  have hnil := p.takeWhile_isBlank
  intro c hc
  obtain ⟨rest, hrest⟩ := List.head?_eq_some_iff.1 hc
  rw [hrest, List.takeWhile_cons] at hnil
  split at hnil
  · contradiction
  · exact Bool.eq_false_iff.2 ‹_›

/-- Nor does it start with a closing bracket. -/
theorem isCloser_head : ∀ c ∈ p.text.head?, isCloser c = false := by
  intro c hc
  obtain ⟨rest, hrest⟩ := List.head?_eq_some_iff.1 hc
  have hwhole := p.whole
  rw [hrest] at hwhole
  refine Bool.eq_false_iff.2 fun hcloser ↦ ?_
  simp only [isCloser, Bool.or_eq_true, beq_iff_eq] at hcloser
  rcases hcloser with (rfl | rfl) | rfl <;> contradiction

/-- A phrase stays the expression that it is before what ends it. -/
theorem extent_append {others : List Char} (h : EndsAt mode p.text others) :
    extent mode (p.text ++ others) = .upTo p.text := by
  obtain ⟨t, ht, hrun⟩ := run_extent p.whole
  rw [hrun others h.detached]
  cases others with
  | nil =>
    rw [run, ht.quote, outside, ht.closers]
    exact ht.found
  | cons c rest =>
    rw [run, ht.unread, read_eq_stop ht h]
    exact ht.found

end Phrase

end Pug

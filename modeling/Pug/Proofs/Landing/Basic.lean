import Pug.Expression.Extent
import Pug.Proofs.Reading.Step
import Pug.Proofs.Source.Foothold

/-!
# Readers that land

A reader *lands* if a run that starts at a foothold ends at one or stops at an error that was found
at one. Readers that land make up readers that land, so it comes down to the moves: on a line they
pass characters that break no line, and they leave a line behind the whole line break.

What a reader finds may be known as well: where it is told to have been, there is a foothold.
-/

namespace Pug

open Text Token

variable {σ E α β : Type} {source : List Char}

/-- A text without line breaks. -/
def OneLine (text : String) : Prop :=
  ∀ x ∈ text.toList, isBreak x = false

namespace OneLine

variable {a b : String}

theorem of_any (h : a.toList.any isBreak = false) : OneLine a := by
  simpa [OneLine] using h

theorem append (ha : OneLine a) (hb : OneLine b) : OneLine (a ++ b) := by
  unfold OneLine
  rw [String.toList_append]
  exact List.forall_mem_append.2 ⟨ha, hb⟩

/-- A number in digits. -/
theorem toString (n : Nat) : OneLine (ToString.toString n) := by
  intro x hx
  have hmem : x ∈ Nat.toDigits 10 n := by simpa using hx
  have hdigit : x.isDigit = true := Nat.isDigit_of_mem_toDigits (by decide) (by decide) hmem
  rw [isBreak, Bool.or_eq_false_iff, beq_eq_false_iff_ne, beq_eq_false_iff_ne]
  constructor <;> (rintro rfl; contradiction)

end OneLine

/-- An error as it should be: it was found at a foothold, and its help is one line. -/
structure WellPlaced (source : List Char) (e : LexError) : Prop where
  foothold : ∃ c, Foothold source c ∧ c.offset = e.offset
  help : ∀ help ∈ e.help, OneLine help

/-- A failure as it should be: an error was found at a foothold, and the expression parser broke down
where a scan is torn. -/
structure Accountable (source : List Char) (f : Failure) : Prop where
  error : ∀ e, f = .error e → WellPlaced source e
  brokeDown : f = .brokeDown → ∃ mode c, Place source c ∧ extent mode c.rest = .torn

namespace Accountable

/-- Any other failure is one of the reader. -/
theorem of_other {f : Failure} (he : ∀ e, f ≠ .error e) (hb : f ≠ .brokeDown) :
    Accountable source f :=
  ⟨fun e h ↦ absurd h (he e), fun h ↦ absurd h hb⟩

theorem of_foothold {c : Cursor} (h : Foothold source c) (problem : Problem) :
    Accountable source (.error ⟨problem, c.offset, none⟩) := by
  refine ⟨?_, nofun⟩
  rintro e ⟨⟩
  exact ⟨⟨c, h, rfl⟩, nofun⟩

theorem of_foothold_help {c : Cursor} (h : Foothold source c) (problem : Problem) {help : String}
    (hhelp : OneLine help) : Accountable source (.error ⟨problem, c.offset, some help⟩) := by
  refine ⟨?_, nofun⟩
  rintro e ⟨⟩
  refine ⟨⟨c, h, rfl⟩, ?_⟩
  rintro _ ⟨⟩
  exact hhelp

end Accountable

namespace Reader

/-- Run from `s`, the reader ends at a foothold, with a value that satisfies `R`, or in a failure
that is accountable. -/
def LandsFrom (source : List Char) (R : α → Prop) (m : Reader σ α) (s : ReadState σ) : Prop :=
  m.Ensures s (fun a t ↦ R a ∧ Foothold source t.cursor) fun f _ ↦ Accountable source f

/-- Run from any foothold, the reader ends at a foothold, with a value that satisfies `R`. -/
def LandsWith (source : List Char) (R : α → Prop) (m : Reader σ α) : Prop :=
  ∀ s, Foothold source s.cursor → LandsFrom source R m s

/-- Run from any foothold, the reader ends at a foothold. -/
abbrev Lands (source : List Char) (m : Reader σ α) : Prop :=
  LandsWith source (fun _ ↦ True) m

section Rules

variable {R : α → Prop} {S : β → Prop} {m n : Reader σ α} {k : α → Reader σ β} {s : ReadState σ}

theorem LandsFrom.bind (h : LandsFrom source R m s) (hk : ∀ a, R a → LandsWith source S (k a)) :
    LandsFrom source S (m >>= k) s :=
  Ensures.bind h fun a t ⟨ha, ht⟩ ↦ hk a ha t ht

theorem LandsFrom.ite {p : Prop} [Decidable p] (ht : p → LandsFrom source R m s)
    (hf : ¬p → LandsFrom source R n s) : LandsFrom source R (if p then m else n) s :=
  ensures_ite ht hf

theorem LandsWith.bind (h : LandsWith source R m) (hk : ∀ a, R a → LandsWith source S (k a)) :
    LandsWith source S (m >>= k) :=
  fun s hs ↦ (h s hs).bind hk

theorem LandsWith.pure {a : α} (h : R a) : LandsWith source R (pure a : Reader σ α) :=
  fun _ hs ↦ ⟨h, hs⟩

theorem LandsWith.ite {p : Prop} [Decidable p] (ht : p → LandsWith source R m)
    (hf : ¬p → LandsWith source R n) : LandsWith source R (if p then m else n) :=
  fun s hs ↦ .ite (fun hp ↦ ht hp s hs) fun hp ↦ hf hp s hs

theorem pure_lands (a : α) : Lands source (pure a : Reader σ α) :=
  LandsWith.pure trivial

theorem LandsWith.throw {f : Failure} (h : Accountable source f) :
    LandsWith source R (throw f : Reader σ α) :=
  fun _ _ ↦ h

end Rules

section Moves

variable {R : α → Prop} {c d : Cursor} {w rest : List Char} {s : ReadState σ}

theorem failAt_lands (h : Foothold source c) (problem : Problem) :
    LandsWith source R (failAt c problem : Reader σ α) :=
  fun _ _ ↦ .of_foothold h problem

theorem failWithHelp_lands (h : Foothold source c) (problem : Problem) {help : String}
    (hhelp : OneLine help) :
    LandsWith source R (failWithHelp c problem help : Reader σ α) :=
  fun _ _ ↦ .of_foothold_help h problem hhelp

theorem here_lands : LandsWith source (Foothold source) (here : Reader σ Cursor) :=
  fun _ hs ↦ ⟨hs, hs⟩

/-- What follows a look at the cursor goes on from the same state. -/
theorem LandsFrom.here {k : Cursor → Reader σ α} (h : LandsFrom source R (k s.cursor) s) :
    LandsFrom source R (here >>= k) s :=
  h

theorem LandsFrom.moveTo {k : Unit → Reader σ α}
    (h : LandsFrom source R (k ()) { s with cursor := c }) :
    LandsFrom source R (moveTo c >>= k) s :=
  h

/-- A number of bytes is passed with the text that is known to stand in front. -/
theorem LandsFrom.bump {k : Unit → Reader σ α} {n : Nat} (hr : s.cursor.rest = w ++ rest)
    (hn : byteLength w = n)
    (h : LandsFrom source R (k ()) { s with cursor := s.cursor.past w }) :
    LandsFrom source R (bump n >>= k) s :=
  (ensures_bind _ _).2 (ensures_bump (Cursor.leads_past hr) hn h)

theorem moveTo_lands (h : Foothold source c) : Lands source (moveTo c : Reader σ Unit) :=
  fun _ _ ↦ ⟨trivial, h⟩

theorem skipSpacing_lands : Lands source (skipSpacing : Reader σ Unit) :=
  fun _ hs ↦ ⟨trivial, hs.skipSpacing⟩

theorem skipSeparators_lands : Lands source (skipSeparators : Reader σ Unit) :=
  fun _ hs ↦ ⟨trivial, hs.skipSeparators⟩

theorem skipLine_lands : Lands source (skipLine : Reader σ Unit) :=
  fun _ hs ↦ ⟨trivial, hs.lineEnd⟩

theorem eat_lands {word : String} (hw : word.toList.any isBreak = false) :
    Lands source (eat word : Reader σ Bool) :=
  fun _ hs ↦ ensures_eat (fun h ↦ ⟨trivial, hs.past_startsWith h hw⟩) fun _ ↦ ⟨trivial, hs⟩

/-- Telling a text from two places moves nothing. -/
theorem placeAt_lands (c : Cursor) (offset : Nat) : Lands source (placeAt c offset : Reader σ _) :=
  LandsWith.ite (fun _ ↦ pure_lands _) fun _ ↦ .throw (.of_other nofun nofun)

theorem textBetween_lands (c d : Cursor) : Lands source (textBetween c d : Reader σ _) :=
  LandsWith.ite (fun _ ↦ pure_lands _) fun _ ↦ .throw (.of_other nofun nofun)

theorem tokenFrom_lands (c : Cursor) (kind : Kind) :
    Lands source (tokenFrom c kind : Reader σ (Token E)) :=
  here_lands.bind fun _ _ ↦ (textBetween_lands _ _).bind fun _ _ ↦ pure_lands _

theorem lineFrom_lands (c : Cursor) (a : Token E) : Lands source (lineFrom c a : Reader σ _) :=
  here_lands.bind fun _ _ ↦ (textBetween_lands _ _).bind fun _ _ ↦ pure_lands _

theorem endRun_lands (interpolated : Bool) : Lands source (endRun interpolated : Reader σ Unit) :=
  skipSpacing_lands.bind fun _ _ ↦ here_lands.bind fun _ hc ↦
    LandsWith.ite (fun _ ↦ pure_lands _) fun _ ↦ failAt_lands hc _

/-- An item that others may follow. -/
theorem one_lands {m : Reader σ α} (h : LandsFrom source (fun _ ↦ True) m s) :
    LandsFrom source (fun _ ↦ True) (do return (.one (← m) : Item α β)) s :=
  h.bind fun _ _ ↦ pure_lands _

/-- A row of items that land. -/
theorem gather_lands {item : Reader σ (Item α β)} (h : Lands source item) (n : Nat) :
    Lands source (gather item n) := by
  induction n with
  | zero => exact LandsWith.throw (.of_other nofun nofun)
  | succ n ih =>
    refine h.bind fun r _ ↦ ?_
    cases r with
    | one a => exact ih.bind fun _ _ ↦ pure_lands _
    | last as b => exact pure_lands _

end Moves

end Reader

/-- A setup with which expressions are read to a foothold, from a foothold on. -/
def Setup.Lands (source : List Char) (g : Setup σ E) : Prop :=
  ∀ mode problem, Reader.LandsWith source
    (fun e : Embedded E ↦ ∃ c, Foothold source c ∧ c.offset = e.span.start)
    (Reader.expression g mode problem)

end Pug

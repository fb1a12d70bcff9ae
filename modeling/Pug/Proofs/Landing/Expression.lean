import Pug.Proofs.Expression.Delimited
import Pug.Proofs.Landing.Basic

/-!
# Expressions land

An expression that the scan finds neither ends with a line break nor has one among the blanks at its
front. Outside brackets a line break ends an expression, and strings and groups end with what closes
them. So a parser that takes what the scan finds leaves a foothold, and the expression starts at one.
-/

namespace Pug

open Text Token Reader

namespace Extent

variable {mode : Mode} {w : List Char} {c : Char} {n k : Nat}

/-- The blanks in front break no line. -/
def StartsUnbroken (w : List Char) : Prop :=
  ∀ c ∈ w.takeWhile isBlank, isBreak c = false

theorem StartsUnbroken.of_not_blank (hc : isBlank c = false) (w : List Char) :
    StartsUnbroken (c :: w) := by
  intro d hd
  rw [List.takeWhile_cons_of_neg (by simp [hc])] at hd
  contradiction

theorem StartsUnbroken.cons (hc : isBreak c = false) (hw : StartsUnbroken w) :
    StartsUnbroken (c :: w) := by
  by_cases hb : isBlank c = true
  · intro d hd
    rw [List.takeWhile_cons_of_pos hb] at hd
    obtain rfl | hd := List.mem_cons.1 hd
    · exact hc
    · exact hw d hd
  · exact .of_not_blank (Bool.eq_false_iff.2 hb) w

theorem isBlank_of_isQuote (h : isQuote c = true) : isBlank c = false := by
  simp only [isQuote, Bool.or_eq_true, beq_iff_eq] at h
  obtain (rfl | rfl) | rfl := h <;> rfl

theorem isBlank_of_closer {d : Char} (h : closer? c = some d) : isBlank c = false := by
  unfold closer? at h
  split_ifs at h with hround hsquare hcurly
  · exact beq_iff_eq.1 hround ▸ rfl
  · exact beq_iff_eq.1 hsquare ▸ rfl
  · exact beq_iff_eq.1 hcurly ▸ rfl

/-- The blanks in front of a row of items break no line. -/
theorem Items.startsUnbroken (h : Items mode n w k) : StartsUnbroken w := by
  induction h with
  | nil => exact List.forall_mem_nil _
  | literal hq => exact .of_not_blank (isBlank_of_isQuote hq) _
  | group ho => exact .of_not_blank (isBlank_of_closer ho) _
  | pair _ ih => exact .cons rfl (.cons rfl ih)
  | optional _ _ ih => exact .cons rfl ih
  | condition _ _ ih => exact .cons rfl ih
  | colon _ _ ih => exact .cons rfl ih
  | char hc _ _ _ ih => exact .cons hc.unbroken ih

/-- What the scan finds does not end in a line break, nor do the blanks at its front hold one. -/
theorem unbroken_of_extent {text e : List Char} (h : extent mode text = .upTo e) :
    (∀ c ∈ e.getLast?, isBreak c = false) ∧ ∀ c ∈ e.takeWhile isBlank, isBreak c = false := by
  obtain ⟨⟨k, hitems⟩, -⟩ := exists_items_of_extent h
  exact ⟨hitems.unbroken, hitems.startsUnbroken⟩

end Extent

variable {σ E : Type} {source : List Char}

/-- A parser that takes what the scan finds reads expressions from foothold to foothold. -/
theorem Setup.checked_lands (source : List Char) (shape : E → Shape)
    (check : Mode → List Char → Option E) (maxDepth rounds : Nat) :
    Setup.Lands source ⟨ExpressionParser.checked shape check, maxDepth, rounds⟩ := by
  intro mode problem s hs
  refine LandsFrom.here (LandsFrom.bind
    (R := (· = ExpressionParser.checkedAnswer check mode s.cursor.rest)) ⟨rfl, hs⟩ ?_)
  rintro _ rfl
  unfold ExpressionParser.checkedAnswer
  cases hextent : extent mode s.cursor.rest with
  | absent => exact failAt_lands hs problem
  | torn => exact LandsWith.throw ⟨nofun, fun _ ↦ ⟨mode, s.cursor, hs.place, hextent⟩⟩
  | upTo text =>
    dsimp only
    cases check mode (trim text) with
    | none => exact failAt_lands hs problem
    | some handle =>
      obtain ⟨hlast, hfront⟩ := Extent.unbroken_of_extent hextent
      obtain ⟨others, hrest⟩ := exists_eq_append_of_extent hextent
      have hfirst : firstBytes (byteLength text) s.cursor.rest = text := by
        rw [hrest, firstBytes_append]
      have hstop : Foothold source (s.cursor.past text) := by
        refine hs.leads (Cursor.leads_past hrest) fun hreturn ↦ ?_
        exact absurd (hlast _ hreturn) (by decide)
      have hstart : Foothold source (s.cursor.past (text.takeWhile isBlank)) := by
        have hblanks : s.cursor.rest =
            text.takeWhile isBlank ++ (text.dropWhile isBlank ++ others) := by
          rw [hrest, ← List.append_assoc, List.takeWhile_append_dropWhile]
        exact hs.past hblanks hfront
      dsimp only
      rw [hfirst]
      refine LandsWith.ite (fun _ ↦ ?_) fun _ ↦ ?_
      · exact (failAt_lands (R := fun _ ↦ False) hs problem).bind fun _ ↦ False.elim
      · exact (moveTo_lands hstop).bind fun _ _ ↦ .pure ⟨_, hstart, rfl⟩

end Pug

import Pug.Proofs.Print.Sketch
import Pug.Proofs.Text.Quoted
import Pug.Token.Dump

/-!
# A dump tells the sketch of a tree

A dump shows of a tree what its sketch holds, so it can be taken for a printed sketch. The sketch is
read back from the print from the left. The kind ends where its letters end; a text and an
expression are quoted, and cannot be taken for each other, since an expression is announced; and the
margin of a line tells whether it still belongs to the children of the line above. What stands
behind the children is *shallow* for them: it has a smaller margin, or it is the end.
-/

namespace Pug

open Text

namespace Token.Kind

theorem isAlpha_of_mem_name (k : Kind) : ∀ c ∈ k.name.toList, c.isAlpha = true :=
  List.all_eq_true.1 (by cases k <;> decide)

theorem name_ne_empty (k : Kind) : k.name.toList ≠ [] := by
  cases k <;> decide

theorem name_injective {k l : Kind} (h : k.name = l.name) : k = l :=
  Option.some.inj (by rw [← ofName?_name k, h, ofName?_name])

end Token.Kind

namespace Sketch

variable {level : Nat} {s t : Sketch} {ss ts : List Sketch} {x y : List Char}

/-- A text as a dump shows it, with the space in front; an empty text is not shown. -/
def shownText (text : String) : List Char :=
  if text.isEmpty then [] else ' ' :: dumpQuoted text.toList

/-- An expression as a dump shows it, with the space in front. -/
def shownExpr : Option String → List Char
  | none => []
  | some e => " expr=".toList ++ dumpQuoted e.toList

theorem shownExpr_some (e : String) :
    shownExpr (some e) = " expr=".toList ++ dumpQuoted e.toList := by
  rfl

/-- The line of a sketch behind its margin. -/
def shown (s : Sketch) : List Char :=
  s.kind.name.toList ++ (shownText s.text ++ shownExpr s.expr)

mutual

/-- A sketch as a dump shows it, with its root at `level`. -/
def printed (level : Nat) : Sketch → List Char
  | ⟨kind, text, expr, children⟩ =>
    List.replicate (2 * level) ' ' ++ (shown ⟨kind, text, expr, children⟩ ++
      '\n' :: printedAll (level + 1) children)

/-- Some sketches, one after the other, with their roots at `level`. -/
def printedAll (level : Nat) : List Sketch → List Char
  | [] => []
  | s :: ss => s.printed level ++ printedAll level ss

end

/-! ## One line -/

theorem shownExpr_append_injective {e f : Option String}
    (h : shownExpr e ++ '\n' :: x = shownExpr f ++ '\n' :: y) : e = f ∧ x = y := by
  cases e with
  | none =>
    cases f with
    | none => exact ⟨rfl, (List.cons.inj h).2⟩
    | some f => exact absurd (List.cons.inj h).1 (by decide)
  | some e =>
    cases f with
    | none => exact absurd (List.cons.inj h).1 (by decide)
    | some f =>
      rw [shownExpr_some, shownExpr_some, List.append_assoc, List.append_assoc] at h
      obtain ⟨htext, hrest⟩ := dumpQuoted_append_injective (List.append_cancel_left h)
      exact ⟨congrArg some (String.toList_injective htext), (List.cons.inj hrest).2⟩

/-- No expression can be taken for a text: a text has a quote where it has a letter. -/
theorem ne_shownExpr {cs : List Char} (e : Option String) :
    ' ' :: dumpQuoted cs ++ x ≠ shownExpr e ++ '\n' :: y := by
  intro h
  cases e with
  | none => exact absurd (List.cons.inj h).1 (by decide)
  | some e => exact absurd (List.cons.inj (List.cons.inj h).2).1 (by decide)

theorem shownText_append_injective {a b : String} {e f : Option String}
    (h : shownText a ++ (shownExpr e ++ '\n' :: x) = shownText b ++ (shownExpr f ++ '\n' :: y)) :
    a = b ∧ e = f ∧ x = y := by
  by_cases ha : a.isEmpty = true <;> by_cases hb : b.isEmpty = true
  · rw [shownText, shownText, if_pos ha, if_pos hb] at h
    rw [String.isEmpty_iff.1 ha, String.isEmpty_iff.1 hb]
    exact ⟨rfl, shownExpr_append_injective h⟩
  · rw [shownText, shownText, if_pos ha, if_neg hb] at h
    exact (ne_shownExpr e h.symm).elim
  · rw [shownText, shownText, if_neg ha, if_pos hb] at h
    exact (ne_shownExpr f h).elim
  · rw [shownText, shownText, if_neg ha, if_neg hb] at h
    obtain ⟨htext, hrest⟩ := dumpQuoted_append_injective (List.cons.inj h).2
    exact ⟨String.toList_injective htext, shownExpr_append_injective hrest⟩

theorem isAlpha_head?_shown (text : String) (expr : Option String) (x : List Char) :
    ∀ c ∈ (shownText text ++ (shownExpr expr ++ '\n' :: x)).head?, c.isAlpha = false := by
  unfold shownText
  split
  · cases expr with
    | none => rintro c ⟨⟩; rfl
    | some e => rintro c ⟨⟩; rfl
  · rintro c ⟨⟩; rfl

theorem shown_append_injective (h : s.shown ++ '\n' :: x = t.shown ++ '\n' :: y) :
    s.kind = t.kind ∧ s.text = t.text ∧ s.expr = t.expr ∧ x = y := by
  simp only [shown, List.append_assoc] at h
  obtain ⟨hname, hrest⟩ := append_inj_of_row s.kind.isAlpha_of_mem_name
    t.kind.isAlpha_of_mem_name (isAlpha_head?_shown _ _ _) (isAlpha_head?_shown _ _ _) h
  obtain ⟨htext, hexpr, hbehind⟩ := shownText_append_injective hrest
  exact ⟨Token.Kind.name_injective (String.toList_injective hname), htext, hexpr, hbehind⟩

/-! ## The margins -/

/-- What stands behind the lines of a level: the end, or a line with a smaller margin. -/
def Shallow (level : Nat) (cs : List Char) : Prop :=
  cs = [] ∨ (cs.takeWhile (· == ' ')).length < 2 * level

theorem Shallow.succ (h : Shallow level x) : Shallow (level + 1) x :=
  h.imp_right (fun hlen ↦ by omega)

theorem takeWhile_printed (level : Nat) (s : Sketch) (x : List Char) :
    (s.printed level ++ x).takeWhile (· == ' ') = List.replicate (2 * level) ' ' := by
  obtain ⟨kind, text, expr, children⟩ := s
  obtain ⟨c, name, hname⟩ := List.exists_cons_of_ne_nil kind.name_ne_empty
  have hletter : c.isAlpha = true := kind.isAlpha_of_mem_name c (hname ▸ List.mem_cons_self)
  have hc : (c == ' ') = false := by
    rw [beq_eq_false_iff_ne]
    rintro rfl
    exact absurd hletter (by decide)
  rw [printed, shown, hname, List.append_assoc,
    List.takeWhile_append_of_pos (fun _ h ↦ beq_iff_eq.2 (List.eq_of_mem_replicate h))]
  simp [hc]

theorem not_shallow_printed (level : Nat) (s : Sketch) (x : List Char) :
    ¬ Shallow level (s.printed level ++ x) := by
  rintro (hnil | hlen)
  · cases s
    rw [List.append_eq_nil_iff, printed, List.append_eq_nil_iff, List.append_eq_nil_iff] at hnil
    exact List.cons_ne_nil _ _ hnil.1.2.2
  · rw [takeWhile_printed, List.length_replicate] at hlen
    exact lt_irrefl _ hlen

theorem shallow_printedAll (hx : Shallow level x) (ss : List Sketch) :
    Shallow (level + 1) (printedAll level ss ++ x) := by
  cases ss with
  | nil => exact hx.succ
  | cons s ss =>
    refine .inr ?_
    rw [printedAll, List.append_assoc, takeWhile_printed, List.length_replicate]
    omega

/-! ## The tree -/

mutual

/-- A printed sketch can be cut off from what stands behind it. -/
theorem printed_append_injective : ∀ {s t : Sketch} {level : Nat} {x y : List Char},
    Shallow (level + 1) x → Shallow (level + 1) y → s.printed level ++ x = t.printed level ++ y →
    s = t ∧ x = y
  | ⟨_, _, _, children⟩, ⟨_, _, _, others⟩, level, x, y, hx, hy, h => by
    simp only [printed, List.append_assoc] at h
    obtain ⟨rfl, rfl, rfl, hbelow⟩ := shown_append_injective (List.append_cancel_left h)
    obtain ⟨rfl, hrest⟩ := printedAll_append_injective hx hy hbelow
    exact ⟨rfl, hrest⟩

/-- The same for some sketches: their number is told by the margin of what stands behind them. -/
theorem printedAll_append_injective : ∀ {ss ts : List Sketch} {level : Nat} {x y : List Char},
    Shallow level x → Shallow level y → printedAll level ss ++ x = printedAll level ts ++ y →
    ss = ts ∧ x = y
  | [], [], _, _, _, _, _, h => ⟨rfl, h⟩
  | [], t :: ts, level, _, _, hx, _, h => by
    rw [printedAll, printedAll, List.append_assoc, List.nil_append] at h
    exact (not_shallow_printed level t _ (h ▸ hx)).elim
  | s :: ss, [], level, _, _, _, hy, h => by
    rw [printedAll, printedAll, List.append_assoc, List.nil_append] at h
    exact (not_shallow_printed level s _ (h ▸ hy)).elim
  | s :: ss, t :: ts, _, _, _, hx, hy, h => by
    rw [printedAll, printedAll, List.append_assoc, List.append_assoc] at h
    obtain ⟨rfl, hrest⟩ := printed_append_injective (shallow_printedAll hx ss)
      (shallow_printedAll hy ts) h
    obtain ⟨rfl, hbehind⟩ := printedAll_append_injective hx hy hrest
    exact ⟨rfl, hbehind⟩

end

end Sketch

namespace Token

variable {E E₁ E₂ : Type}

/-! ## Dumps are printed sketches -/

theorem dumpLine_eq (level : Nat) (t : Token E) :
    t.dumpLine level = List.replicate (2 * level) ' ' ++ t.sketch.shown := by
  have htext : (if t.kind.isContainer || t.text.isEmpty then [] else
      ' ' :: dumpQuoted t.text.toList) = Sketch.shownText t.sketch.text := by
    rw [sketch_eq, Sketch.shownText]
    cases t.kind.isContainer <;> rfl
  have hkind : t.sketch.kind = t.kind := by rw [sketch_eq]
  have hexpr : t.sketch.expr = t.expr.map Embedded.text := by rw [sketch_eq, exprText?]
  rw [dumpLine, htext, Sketch.shown, hkind, hexpr, List.append_assoc, List.append_assoc]
  cases t.expr <;> rfl

mutual

theorem dumpAt_eq : ∀ (level : Nat) (t : Token E), t.dumpAt level = t.sketch.printed level
  | level, ⟨kind, text, span, expr, children⟩ => by
    rw [dumpAt, dumpLine_eq, dumpAllAt_eq, List.append_assoc]
    rfl

theorem dumpAllAt_eq : ∀ (level : Nat) (ts : List (Token E)),
    dumpAllAt level ts = Sketch.printedAll level (sketchAll ts)
  | _, [] => rfl
  | level, t :: ts => by
    rw [dumpAllAt, dumpAt_eq level t, dumpAllAt_eq level ts]
    rfl

end

/-! ## The lines of a dump -/

theorem dumpLine_unbroken (level : Nat) (t : Token E) {c : Char} (hc : c ∈ t.dumpLine level) :
    isBreak c = false := by
  have hquoted {cs : List Char} (h : c ∈ ' ' :: dumpQuoted cs) : isBreak c = false := by
    obtain rfl | h := List.mem_cons.1 h
    · rfl
    · exact dumpQuoted_unbroken h
  rw [dumpLine_eq, Sketch.shown, List.mem_append, List.mem_append, List.mem_append] at hc
  obtain hmargin | hname | htext | hexpr := hc
  · rw [List.eq_of_mem_replicate hmargin]
    rfl
  · have hletter := Kind.isAlpha_of_mem_name _ c hname
    rw [isBreak, Bool.or_eq_false_iff, beq_eq_false_iff_ne, beq_eq_false_iff_ne]
    constructor <;> (rintro rfl; exact absurd hletter (by decide))
  · unfold Sketch.shownText at htext
    split at htext
    · exact absurd htext List.not_mem_nil
    · exact hquoted htext
  · cases he : t.sketch.expr with
    | none => exact absurd (he ▸ hexpr) List.not_mem_nil
    | some e =>
      rw [he, Sketch.shownExpr_some, List.mem_append] at hexpr
      obtain hword | hquote := hexpr
      · have hall : (" expr=".toList.all fun c ↦ !isBreak c) = true := by decide
        simpa using List.all_eq_true.1 hall c hword
      · exact dumpQuoted_unbroken hquote

/-- A line shows a token, at some level, and holds no break. -/
def Shows (line : List Char) (t : Token E) : Prop :=
  (∃ level, line = t.dumpLine level) ∧ ∀ c ∈ line, isBreak c = false

mutual

theorem dumpAt_lines : ∀ (level : Nat) (t : Token E), ∃ lines : List (List Char),
    t.dumpAt level = lines.flatMap (· ++ ['\n']) ∧ List.Forall₂ Shows lines t.preorder
  | level, ⟨kind, text, span, expr, children⟩ => by
    obtain ⟨lines, hdump, hshows⟩ := dumpAllAt_lines (level + 1) children
    refine ⟨dumpLine level ⟨kind, text, span, expr, children⟩ :: lines, ?_, ?_⟩
    · rw [dumpAt, hdump, List.flatMap_cons, List.append_assoc]
      rfl
    · rw [preorder]
      exact .cons ⟨⟨level, rfl⟩, fun _ hc ↦ dumpLine_unbroken level _ hc⟩ hshows

theorem dumpAllAt_lines : ∀ (level : Nat) (ts : List (Token E)), ∃ lines : List (List Char),
    dumpAllAt level ts = lines.flatMap (· ++ ['\n']) ∧ List.Forall₂ Shows lines (preorderAll ts)
  | _, [] => ⟨[], rfl, by rw [preorderAll]; exact .nil⟩
  | level, t :: ts => by
    obtain ⟨lines, hdump, hshows⟩ := dumpAt_lines level t
    obtain ⟨more, hmore, hrest⟩ := dumpAllAt_lines level ts
    refine ⟨lines ++ more, ?_, ?_⟩
    · rw [dumpAllAt, hdump, hmore, List.flatMap_append]
    · rw [preorderAll]
      exact List.rel_append hshows hrest

end

/-- Two trees have one dump if and only if they have one sketch: the same shape, and token by token
the same kind, the same expression or none, and the same text, but for containers. A dump has one
line for each token, in preorder, and a break only at the end of each line. -/
theorem dump_eq_iff (t : Token E₁) (u : Token E₂) :
    (t.dump = u.dump ↔ t.sketch = u.sketch) ∧
      ∃ lines : List (List Char), t.dump.toList = lines.flatMap (· ++ ['\n']) ∧
        List.Forall₂ Shows lines t.preorder := by
  refine ⟨⟨fun h ↦ ?_, fun h ↦ ?_⟩, ?_⟩
  · have hprinted : t.sketch.printed 0 ++ [] = u.sketch.printed 0 ++ [] := by
      rw [← dumpAt_eq, ← dumpAt_eq, String.ofList_injective h]
    exact (Sketch.printed_append_injective (.inl rfl) (.inl rfl) hprinted).1
  · rw [dump, dump, dumpAt_eq, dumpAt_eq, h]
  · rw [dump, String.toList_ofList]
    exact dumpAt_lines 0 t

end Token

end Pug

import Pug.Proofs.Expression.Grammar

/-!
# Pieces of expressions

What expressions are put together from, as a scan takes it outside brackets: characters that mean
nothing to it, strings and groups, and the marks of a conditional with the gaps around them. `Keeps` says
of a text that a scan keeps it as a whole, wherever it comes to it. A question mark is counted unless it
is `lost` to the point behind it.
-/

namespace Pug

open Text

namespace Extent

/-- Spaces and tabs, or nothing. -/
structure Gap where
  chars : List Char
  spacing : ∀ c ∈ chars, isSpacing c = true

/-- The characters that mean nothing to a scan, wherever they stand outside strings. -/
def isOrdinary (c : Char) : Bool :=
  !isBreak c && !isSpacing c && !isQuote c && (closer? c).isNone && !isCloser c &&
    !(['?', ':', ',', ';'] : List Char).contains c

/-- A string, or a group in brackets. -/
inductive IsEnclosed (mode : Mode) : List Char → Prop
  | literal {q : Char} {l : List Char} (hq : isQuote q = true) (hl : Literal q l) :
    IsEnclosed mode (q :: l)
  | group {o d : Char} {g : List Char} (ho : closer? o = some d) (hg : Inside mode g) :
    IsEnclosed mode (o :: (g ++ [d]))

/-- Wherever a scan comes to the text outside strings and brackets, it keeps the text as a whole. -/
def Keeps (mode : Mode) (w : List Char) : Prop :=
  ∀ kept gap n rest, Scan.run mode (Scan.clear kept gap [] n) (w ++ rest) =
    Scan.run mode (Scan.clear (w.reverse ++ (gap ++ kept)) [] [] n) rest

theorem Keeps.append {mode : Mode} {v w : List Char} (hv : Keeps mode v) (hw : Keeps mode w) :
    Keeps mode (v ++ w) := by
  intro kept gap n rest
  rw [List.append_assoc, hv, hw, List.reverse_append, List.append_assoc, List.nil_append]

theorem keeps_of_isOrdinary {mode : Mode} {c : Char} (hc : isOrdinary c = true) :
    Keeps mode [c] := by
  intro kept gap n rest
  simp only [isOrdinary, Bool.and_eq_true, Bool.not_eq_true', Option.isNone_iff_eq_none] at hc
  obtain ⟨⟨⟨⟨⟨hbreak, hsp⟩, hquote⟩, hopen⟩, hclose⟩, hmarks⟩ := hc
  have hno : ∀ x ∈ ['?', ':', ',', ';'], c ≠ x := by
    rintro x hx rfl
    rw [List.contains_iff_mem.2 hx] at hmarks
    contradiction
  have hsep : c ∉ separators mode := by
    cases mode <;> simp [separators, hno ':' (by decide), hno ',' (by decide), hno ';' (by decide)]
  exact Scan.run_plain ⟨hbreak, hquote, hopen, hclose⟩ hsp (hno '?' (by decide)) hsep rest

theorem IsEnclosed.keeps {mode : Mode} {w : List Char} (h : IsEnclosed mode w) : Keeps mode w := by
  intro kept gap n rest
  cases h with
  | literal hq hl => exact Scan.passes_literal hq hl kept gap [] n rest
  | group ho hg => exact Scan.passes_group ho hg kept gap [] n rest

/-- A nonempty row of characters that mean nothing to a scan. -/
structure IsRow (w : List Char) : Prop where
  nonempty : w ≠ []
  ordinary : ∀ c ∈ w, isOrdinary c = true

theorem IsRow.append {v w : List Char} (hv : IsRow v) (hw : IsRow w) : IsRow (v ++ w) := by
  refine ⟨List.append_ne_nil_of_left_ne_nil hv.nonempty w, ?_⟩
  rintro c hc
  rcases List.mem_append.1 hc with hc | hc
  · exact hv.ordinary c hc
  · exact hw.ordinary c hc

theorem isRow_singleton {c : Char} (hc : isOrdinary c = true) : IsRow [c] :=
  ⟨List.cons_ne_nil c [], by simpa using hc⟩

theorem IsRow.keeps {mode : Mode} {w : List Char} (h : IsRow w) : Keeps mode w := by
  obtain ⟨hne, hw⟩ := h
  induction w with
  | nil => contradiction
  | cons c w ih =>
    have hc : Keeps mode [c] := keeps_of_isOrdinary (hw c List.mem_cons_self)
    cases w with
    | nil => exact hc
    | cons d w =>
      exact hc.append (ih (List.cons_ne_nil d w) fun x hx ↦ hw x (List.mem_cons_of_mem c hx))

/-- A letter, a digit, one of `_` and `$`, or any character outside ASCII. -/
def isNameChar (c : Char) : Bool :=
  isWordChar c || 128 ≤ c.toNat

theorem isOrdinary_of_isNameChar {c : Char} (hc : isNameChar c = true) : isOrdinary c = true := by
  have hno : ∀ x, isNameChar x = false → c ≠ x := by
    rintro x hx rfl
    rw [hc] at hx
    contradiction
  have hbreak : isBreak c = false := by
    simp [isBreak, hno '\n' rfl, hno '\r' rfl]
  have hspacing : isSpacing c = false := by
    simp [isSpacing, hno ' ' rfl, hno '\t' rfl]
  have hquote : isQuote c = false := by
    simp [isQuote, hno '"' rfl, hno '\'' rfl, hno '\x60' rfl]
  have hopen : closer? c = none := by
    simp [closer?, hno '(' rfl, hno '[' rfl, hno '\x7b' rfl]
  have hclose : isCloser c = false := by
    simp [isCloser, hno ')' rfl, hno ']' rfl, hno '\x7d' rfl]
  simp [isOrdinary, hbreak, hspacing, hquote, hopen, hclose, hno '?' rfl, hno ':' rfl, hno ',' rfl,
    hno ';' rfl]

/-! ### Gaps and marks -/

/-- The characters that operators are made of are no spacing. -/
theorem not_spacing_of_isOperatorChar {c : Char} (h : isOperatorChar c = true) :
    isSpacing c = false := by
  have hall : "+-*/%&|^<>=!?:~.".toList.all (fun c ↦ !isSpacing c) = true := by decide
  simpa using List.all_eq_true.1 hall c (List.contains_iff_mem.1 h)

/-- An operator joins a gap that follows it. -/
theorem joint_of_operator_before {c : Char} (h : isOperatorChar c = true)
    (before after : List Char) : joint (c :: before) after = .joined := by
  simp [joint, h]

/-- An operator joins a gap that it follows. -/
theorem joint_of_operator_behind {c : Char} (h : isOperatorChar c = true)
    (before after : List Char) : joint before (c :: after) = .joined := by
  have hsp : ¬isSpacing c = true := by simp [not_spacing_of_isOperatorChar h]
  unfold joint
  rw [List.dropWhile_cons_of_neg hsp]
  simp [h]

/-- The judgement on a gap is the same at each of its characters. -/
theorem joint_gap {g before after : List Char} (hg : ∀ c ∈ g, isSpacing c = true) :
    joint before (g ++ after) = joint before after := by
  unfold joint
  rw [List.dropWhile_append_of_pos hg]

/-- A question mark is not counted if a point starts the text behind it. -/
def lost (t : List Char) : Nat :=
  if t.head? = some '.' then 1 else 0

theorem lost_le_one (t : List Char) : lost t ≤ 1 := by
  unfold lost
  split <;> decide

namespace Scan

variable {mode : Mode} {kept gap t : List Char} {n : Nat}

/-- A scan sets a gap aside, in the value of an attribute if something joins it. -/
theorem run_gap (g : Gap) (h : mode = .attributeValue → joint kept t = .joined) :
    run mode (clear kept gap [] n) (g.chars ++ t) =
      run mode (clear kept (g.chars.reverse ++ gap) [] n) t := by
  obtain ⟨w, hw⟩ := g
  dsimp only
  induction w generalizing gap with
  | nil => rfl
  | cons c w ih =>
    have htail : ∀ x ∈ w, isSpacing x = true := fun x hx ↦ hw x (List.mem_cons_of_mem c hx)
    have hread : (clear kept gap [] n).read mode c (w ++ t) = .next (clear kept (c :: gap) [] n) := by
      rw [read_of_spacing rfl (hw c List.mem_cons_self), readSpacing, joint_gap htail]
      split
      · rename_i hmay
        rw [Bool.and_eq_true, Bool.and_eq_true, beq_iff_eq] at hmay
        rw [h hmay.1.2]
        rfl
      · rfl
    rw [List.cons_append, run_next rfl hread, ih htail, List.reverse_cons, List.append_assoc]
    rfl

/-- A scan passes the question mark of a conditional, and counts it unless it is lost. -/
theorem run_question (a b : Gap) (ht : ∃ c ∈ t.head?, c ≠ '?') :
    run mode (clear kept [] [] n) (a.chars ++ '?' :: (b.chars ++ t)) =
      run mode (clear ('?' :: (a.chars.reverse ++ kept)) b.chars.reverse []
        (n + 1 - lost (b.chars ++ t))) t := by
  have hoperator : isOperatorChar '?' = true := by decide
  have hquestion : (b.chars ++ t).head? ≠ some '?' := by
    obtain ⟨x, hx, hne⟩ := ht
    cases hb : b.chars with
    | nil => simpa [Option.mem_def.1 hx] using hne
    | cons s ss =>
      rintro ⟨rfl⟩
      exact absurd (b.spacing '?' (by simp [hb])) (by decide)
  have hmark : run mode (clear kept a.chars.reverse [] n) ('?' :: (b.chars ++ t)) =
      run mode (clear ('?' :: (a.chars.reverse ++ kept)) [] [] (n + 1 - lost (b.chars ++ t)))
        (b.chars ++ t) := by
    by_cases hpoint : (b.chars ++ t).head? = some '.'
    · rw [run_optional hpoint, lost, if_pos hpoint, Nat.add_sub_cancel]
    · rw [run_condition ⟨hquestion, hpoint⟩, lost, if_neg hpoint, Nat.sub_zero]
  rw [run_gap a fun _ ↦ joint_of_operator_behind hoperator .., List.append_nil, hmark,
    run_gap b fun _ ↦ joint_of_operator_before hoperator .., List.append_nil]

/-- A scan passes the colon of a conditional that it has counted. -/
theorem run_counted (h : ':' ∈ separators mode) (c d : Gap) :
    run mode (clear kept [] [] (n + 1)) (c.chars ++ ':' :: (d.chars ++ t)) =
      run mode (clear (':' :: (c.chars.reverse ++ kept)) d.chars.reverse [] n) t := by
  have hoperator : isOperatorChar ':' = true := by decide
  rw [run_gap c fun _ ↦ joint_of_operator_behind hoperator .., run_colon h,
    run_gap d fun _ ↦ joint_of_operator_before hoperator .., List.append_nil, List.append_nil]

end Scan

/-! ### Rows of items -/

section Rows

variable {mode : Mode} {n k : Nat} {c : Char} {e t w : List Char}

/-- Spacing counts to a row. -/
theorem Items.spacing (hc : isSpacing c = true) (h : Items mode n w k) : Items mode n (c :: w) k := by
  refine .char (Scan.isSingle_of_isSpacing hc) ?_ ?_ h
  · rintro rfl
    contradiction
  · intro hsep
    rw [(Scan.isSingle_of_separator hsep).2] at hc
    contradiction

theorem Items.gap_append (g : Gap) (h : Items mode n w k) : Items mode n (g.chars ++ w) k := by
  obtain ⟨v, hv⟩ := g
  induction v with
  | nil => exact h
  | cons c v ih =>
    exact .spacing (hv c List.mem_cons_self) (ih fun x hx ↦ hv x (List.mem_cons_of_mem c hx))

theorem Items.append_gap (h : Items mode n w k) (g : Gap) : Items mode n (w ++ g.chars) k := by
  induction h with
  | @nil n =>
    have hgap : Items mode n (g.chars ++ []) n := Items.gap_append g .nil
    rwa [List.append_nil] at hgap
  | literal hq hl _ ih =>
    rw [List.cons_append, List.append_assoc]
    exact .literal hq hl ih
  | group ho hg _ ih =>
    rw [List.cons_append, List.append_assoc, List.cons_append]
    exact .group ho hg ih
  | pair _ ih => exact .pair ih
  | @optional n k w hdot _ ih =>
    have hhead : (w ++ g.chars).head? = some '.' := by
      rw [List.head?_append, hdot]
      rfl
    exact .optional hhead ih
  | @condition n k w hw _ ih =>
    refine .condition ?_ ih
    cases w with
    | cons c w => exact hw
    | nil =>
      constructor
      all_goals
        intro hhead
        exact absurd (g.spacing _ (List.mem_of_mem_head? (Option.mem_def.2 hhead))) (by decide)
  | colon h _ ih => exact .colon h ih
  | char hc hquestion hsep _ ih => exact .char hc hquestion hsep ih

/-- Where no line breaks, it makes no difference what the lines of a statement may break at. -/
theorem Inside.of_unbroken {b b' g : List Char} (h : Inside (.statement b) g)
    (hg : ∀ c ∈ g, isBreak c = false) : Inside (.statement b') g := by
  induction h with
  | nil => exact .nil
  | literal hq hl _ ih =>
    exact .literal hq hl (ih fun c hc ↦ hg c (by simp [hc]))
  | group ho _ _ ihg ih =>
    exact .group ho (ihg fun c hc ↦ hg c (by simp [hc])) (ih fun c hc ↦ hg c (by simp [hc]))
  | char hc _ ih => exact .char hc (ih fun c hc ↦ hg c (by simp [hc]))
  | lineBreak hb _ _ =>
    obtain ⟨-, c, cs, rfl, hc⟩ := hb
    rw [hg c (by simp)] at hc
    contradiction

theorem Items.of_unbroken {b b' : List Char} (h : Items (.statement b) n w k)
    (hw : ∀ c ∈ w, isBreak c = false) : Items (.statement b') n w k := by
  induction h with
  | nil => exact .nil
  | literal hq hl _ ih =>
    exact .literal hq hl (ih fun c hc ↦ hw c (by simp [hc]))
  | group ho hg _ ih =>
    exact .group ho (hg.of_unbroken fun c hc ↦ hw c (by simp [hc])) (ih fun c hc ↦ hw c (by simp [hc]))
  | pair _ ih => exact .pair (ih fun c hc ↦ hw c (by simp [hc]))
  | optional hdot _ ih => exact .optional hdot (ih fun c hc ↦ hw c (by simp [hc]))
  | condition hmark _ ih => exact .condition hmark (ih fun c hc ↦ hw c (by simp [hc]))
  | colon h _ ih => exact .colon h (ih fun c hc ↦ hw c (by simp [hc]))
  | char hc hquestion hsep _ ih =>
    exact .char hc hquestion hsep (ih fun c hc ↦ hw c (by simp [hc]))

/-- A row of items that does not end in spacing is found with the gap before it, and without the one
behind it. -/
theorem extent_gaps (hmode : mode ≠ .attributeValue) (he : Items mode 0 e k)
    (htrim : e.rdropWhile isSpacing = e) (hne : e ≠ []) (a b : Gap) (ht : Stops mode k t) :
    extent mode (a.chars ++ (e ++ (b.chars ++ t))) = .upTo (a.chars ++ e) := by
  have hitems : Items mode 0 (a.chars ++ (e ++ b.chars)) k := (he.append_gap b).gap_append a
  have htext : a.chars ++ (e ++ (b.chars ++ t)) = a.chars ++ (e ++ b.chars) ++ t := by simp
  have hlast : (a.chars ++ e).reverse =
      ((a.chars ++ (e ++ b.chars)).reverse ++ ([] ++ [])).dropWhile isSpacing := by
    have hx : ¬isSpacing (e.getLast hne) = true := List.rdropWhile_eq_self_iff.1 htrim hne
    have hrow : (a.chars ++ (e ++ b.chars)).reverse ++ ([] ++ []) =
        b.chars.reverse ++ (e.getLast hne :: (e.dropLast.reverse ++ a.chars.reverse)) := by
      conv_lhs => rw [← List.dropLast_append_getLast hne]
      simp
    rw [hrow, List.dropWhile_append_of_pos fun c hc ↦ b.spacing c (List.mem_reverse.1 hc),
      List.dropWhile_cons_of_neg hx]
    conv_lhs => rw [← List.dropLast_append_getLast hne]
    simp
  rw [htext]
  exact Scan.run_items hmode hitems ht rfl hlast (List.append_ne_nil_of_right_ne_nil _ hne)

/-- An expression that ends before a colon is a row in which no conditional misses its colon. -/
theorem items_of_colon (h : extent .inline (e ++ [':']) = .upTo e) :
    Items .inline 0 e 0 ∧ e.rdropWhile isSpacing = e ∧ e ≠ [] := by
  obtain ⟨w, others, k, htext, hw, hstops, he, hne⟩ := found_of_extent h
  rw [List.append_nil] at he
  have hrow : w = e ++ (w.reverse.takeWhile isSpacing).reverse := by
    rw [← List.reverse_inj, List.reverse_append, List.reverse_reverse, he,
      List.takeWhile_append_dropWhile]
  have hrest : (w.reverse.takeWhile isSpacing).reverse ++ others = [':'] := by
    rw [hrow, List.append_assoc] at htext
    exact (List.append_cancel_left htext).symm
  have hnone : (w.reverse.takeWhile isSpacing).reverse = [] := by
    cases hs : (w.reverse.takeWhile isSpacing).reverse with
    | nil => rfl
    | cons c cs =>
      have hc : isSpacing c = true :=
        List.mem_takeWhile_imp (List.mem_reverse.1 (hs ▸ List.mem_cons_self))
      rw [hs] at hrest
      rw [(List.cons.inj hrest).1] at hc
      contradiction
  rw [hnone, List.append_nil] at hrow
  rw [hnone, List.nil_append] at hrest
  subst hrow hrest
  have hk : k = 0 := by
    rcases hstops with hc | hc | ⟨-, hc⟩ | ⟨hmode, -⟩
    · contradiction
    · contradiction
    · exact hc rfl
    · contradiction
  refine ⟨hk ▸ hw, ?_, hne⟩
  rw [List.rdropWhile, ← he, List.reverse_reverse]

end Rows

end Extent

end Pug

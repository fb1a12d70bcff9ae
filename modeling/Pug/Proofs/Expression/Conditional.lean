import Pug.Proofs.Expression.Pieces

/-!
# Conditional expressions

A conditional is written as an operand, a `?`, an expression, a `:` and another expression. The scan
knows no operators. It counts the question marks that still miss their `:`, and a `:` ends an expression
where none is missing. So an expression of nested conditionals is found as a whole where each of its
question marks is counted, and that is where none stands directly before a point: those are taken for
the `?.` of another operator, even if a fraction like `.5` follows.

`run_of_fused_le` brings the scan over such an expression, and `exists_short_of_lt_fused` has it stop
before the end where too many question marks are lost.
-/

namespace Pug

open Text

namespace Extent

/-! ### Names and numbers -/

/-- A name: no digit stands first. -/
structure IsIdentifier (w : List Char) : Prop where
  nonempty : w ≠ []
  chars : ∀ c ∈ w, isNameChar c = true
  head : ∀ c ∈ w.head?, c.isDigit = false

/-- Digits, with underscores among them. -/
structure IsDigits (w : List Char) : Prop where
  chars : ∀ c ∈ w, c.isDigit = true ∨ c = '_'
  head : ∃ c ∈ w.head?, c.isDigit = true

/-- A decimal number without an exponent. The digits on one side of the point may be missing. -/
inductive IsMantissa : List Char → Prop
  | whole {w : List Char} (hw : IsDigits w) : IsMantissa w
  | pointed {w : List Char} (hw : IsDigits w) : IsMantissa (w ++ ['.'])
  | fraction {f : List Char} (hf : IsDigits f) : IsMantissa ('.' :: f)
  | mixed {w f : List Char} (hw : IsDigits w) (hf : IsDigits f) : IsMantissa (w ++ '.' :: f)

/-- A decimal number, perhaps with an exponent. -/
inductive IsDecimal : List Char → Prop
  | mantissa {m : List Char} (hm : IsMantissa m) : IsDecimal m
  | exponent {m sign p : List Char} {e : Char} (hm : IsMantissa m) (he : e ∈ ['e', 'E'])
      (hsign : sign ∈ [[], ['+'], ['-']]) (hp : IsDigits p) : IsDecimal (m ++ e :: (sign ++ p))

theorem isOrdinary_of_isDigit {c : Char} (hc : c.isDigit = true) : isOrdinary c = true :=
  isOrdinary_of_isNameChar (by simp [isNameChar, isWordChar, Char.isAlphanum, hc])

theorem IsIdentifier.isRow {w : List Char} (h : IsIdentifier w) : IsRow w :=
  ⟨h.nonempty, fun c hc ↦ isOrdinary_of_isNameChar (h.chars c hc)⟩

theorem IsDigits.isRow {w : List Char} (h : IsDigits w) : IsRow w := by
  constructor
  · rintro rfl
    obtain ⟨c, hc, -⟩ := h.head
    contradiction
  · intro c hc
    rcases h.chars c hc with hc | rfl
    · exact isOrdinary_of_isDigit hc
    · rfl

/-- A name of one character. -/
theorem isIdentifier_singleton {c : Char} (hc : isNameChar c = true) (hdigit : c.isDigit = false) :
    IsIdentifier [c] := by
  refine ⟨List.cons_ne_nil c [], by simpa using hc, ?_⟩
  rintro _ ⟨⟩
  exact hdigit

theorem IsMantissa.isRow {w : List Char} (h : IsMantissa w) : IsRow w := by
  have hpoint : IsRow ['.'] := isRow_singleton rfl
  cases h with
  | whole hw => exact hw.isRow
  | pointed hw => exact hw.isRow.append hpoint
  | fraction hf => exact hpoint.append hf.isRow
  | mixed hw hf => exact hw.isRow.append (hpoint.append hf.isRow)

theorem IsDecimal.isRow {w : List Char} (h : IsDecimal w) : IsRow w := by
  cases h with
  | mantissa hm => exact hm.isRow
  | @exponent m sign p e hm he hsign hp =>
    have hletter : IsRow [e] := by
      rcases List.mem_pair.1 he with rfl | rfl
      all_goals exact isRow_singleton rfl
    have hsigned : IsRow (sign ++ p) := by
      simp only [List.mem_cons, List.not_mem_nil, or_false] at hsign
      rcases hsign with rfl | rfl | rfl
      · exact hp.isRow
      all_goals exact (isRow_singleton rfl).append hp.isRow
    exact hm.isRow.append (hletter.append hsigned)

/-! ### Conditionals -/

/-- An operand of a conditional. -/
inductive IsOperand : List Char → Prop
  | name {w : List Char} (h : IsIdentifier w) : IsOperand w
  | number {w : List Char} (h : IsDecimal w) : IsOperand w
  | enclosed {w : List Char} (h : IsEnclosed .inline w) : IsOperand w

theorem IsOperand.isRow_or {w : List Char} (h : IsOperand w) :
    IsRow w ∨ IsEnclosed .inline w := by
  cases h with
  | name h => exact .inl h.isRow
  | number h => exact .inl h.isRow
  | enclosed h => exact .inr h

theorem IsOperand.keeps {w : List Char} (h : IsOperand w) : Keeps .inline w := by
  rcases h.isRow_or with h | h
  · exact h.keeps
  · exact h.keeps

/-- An operand does not start with a question mark. -/
theorem IsOperand.head {w : List Char} (h : IsOperand w) : ∃ c ∈ w.head?, c ≠ '?' := by
  rcases h.isRow_or with ⟨hne, hw⟩ | h
  · obtain ⟨c, cs, rfl⟩ := List.exists_cons_of_ne_nil hne
    refine ⟨c, rfl, ?_⟩
    rintro rfl
    exact absurd (hw '?' List.mem_cons_self) (by decide)
  · cases h with
    | @literal q l hq _ =>
      refine ⟨q, rfl, ?_⟩
      rintro rfl
      contradiction
    | @group o _ _ ho _ =>
      refine ⟨o, rfl, ?_⟩
      rintro rfl
      contradiction

/-- An expression of nested conditionals, with the gaps around its marks. -/
inductive Conditional where
  | operand (text : List Char) (h : IsOperand text)
  | choice (test : List Char) (h : IsOperand test) (a b : Gap) (yes : Conditional) (c d : Gap)
      (no : Conditional)

namespace Conditional

/-- The text of an expression. -/
def text : Conditional → List Char
  | .operand text _ => text
  | .choice test _ a b yes c d no =>
    test ++ a.chars ++ '?' :: (b.chars ++ yes.text ++ c.chars ++ ':' :: (d.chars ++ no.text))

/-- The question marks of an expression that stand directly before a point. -/
def fused : Conditional → Nat
  | .operand _ _ => 0
  | .choice _ _ _ b yes _ _ no => lost (b.chars ++ yes.text) + yes.fused + no.fused

end Conditional

namespace Conditional

variable {n : Nat} {kept gap : List Char}

theorem text_head (e : Conditional) : ∃ c ∈ e.text.head?, c ≠ '?' := by
  cases e with
  | operand w h => exact h.head
  | choice w h a b yes c d no =>
    obtain ⟨x, hx, hne⟩ := h.head
    exact ⟨x, by simp [text, Option.mem_def.1 hx], hne⟩

/-- The branch of a conditional decides what becomes of its question mark, whatever follows. -/
theorem lost_append (b : Gap) (yes : Conditional) (rest : List Char) :
    lost (b.chars ++ (yes.text ++ rest)) = lost (b.chars ++ yes.text) := by
  obtain ⟨x, hx, -⟩ := yes.text_head
  simp [lost, Option.mem_def.1 hx]

/-- A scan up to the first branch of a conditional. -/
theorem run_test {test : List Char} (h : IsOperand test) (a b : Gap) (yes : Conditional)
    (rest : List Char) :
    Scan.run .inline (Scan.clear kept gap [] n)
        (test ++ (a.chars ++ '?' :: (b.chars ++ (yes.text ++ rest)))) =
      Scan.run .inline
        (Scan.clear ('?' :: (a.chars.reverse ++ (test.reverse ++ (gap ++ kept)))) b.chars.reverse []
          (n + 1 - lost (b.chars ++ yes.text))) (yes.text ++ rest) := by
  obtain ⟨x, hx, hne⟩ := yes.text_head
  have hhead : ∃ c ∈ (yes.text ++ rest).head?, c ≠ '?' := ⟨x, by simp [Option.mem_def.1 hx], hne⟩
  rw [h.keeps, Scan.run_question a b hhead, lost_append]

/-- A scan ends before the colon of a conditional that it has not counted. -/
theorem run_uncounted (c : Gap) (rest : List Char) (hkept : kept ≠ []) :
    Scan.run .inline (Scan.clear kept [] [] 0) (c.chars ++ ':' :: rest) = .upTo kept.reverse := by
  have hinline : Mode.inline ≠ .attributeValue := by decide
  have hstops : Stops .inline 0 (':' :: rest) :=
    .inr (.inr (.inl ⟨List.mem_singleton_self ':', fun _ ↦ rfl⟩))
  rw [Scan.run_gap c fun h ↦ absurd h hinline]
  exact Scan.run_stops hinline hstops hkept

/-- A scan passes an expression if a conditional is left to each of its colons. -/
theorem run_of_fused_le {e : Conditional} (h : e.fused ≤ n) (kept gap t : List Char) :
    Scan.run .inline (Scan.clear kept gap [] n) (e.text ++ t) =
      Scan.run .inline (Scan.clear (e.text.reverse ++ (gap ++ kept)) [] [] (n - e.fused)) t := by
  induction e generalizing n kept gap t with
  | operand w hw => exact hw.keeps kept gap n t
  | choice w hw a b yes c d no ihyes ihno =>
    have hcolon : ':' ∈ separators .inline := List.mem_singleton_self ':'
    have hlost := lost_le_one (b.chars ++ yes.text)
    rw [fused] at h
    obtain ⟨m, hm⟩ : ∃ m, n + 1 - lost (b.chars ++ yes.text) - yes.fused = m + 1 :=
      ⟨n - lost (b.chars ++ yes.text) - yes.fused, by omega⟩
    have hcount : m - no.fused = n - (choice w hw a b yes c d no).fused := by
      rw [fused]
      omega
    simp only [text, List.append_assoc, List.cons_append]
    rw [run_test hw, ihyes (by omega), hm, Scan.run_counted hcolon, ihno (by omega), hcount]
    simp

/-- A scan ends within an expression if too few conditionals are left to its colons. -/
theorem exists_short_of_lt_fused {e : Conditional} (h : n < e.fused) (kept gap t : List Char) :
    ∃ v, Scan.run .inline (Scan.clear kept gap [] n) (e.text ++ t) = .upTo v ∧
      v.length < e.text.length + gap.length + kept.length := by
  induction e generalizing n kept gap t with
  | operand w hw => exact absurd h (Nat.not_lt_zero n)
  | choice w hw a b yes c d no ihyes ihno =>
    have hcolon : ':' ∈ separators .inline := List.mem_singleton_self ':'
    have hlost := lost_le_one (b.chars ++ yes.text)
    rw [fused] at h
    simp only [text, List.append_assoc, List.cons_append, List.length_append, List.length_cons]
    rw [run_test hw]
    generalize hm : n + 1 - lost (b.chars ++ yes.text) = m
    rcases Nat.lt_trichotomy m yes.fused with hlt | heq | hgt
    · obtain ⟨v, hv, hlength⟩ := ihyes hlt _ _ _
      refine ⟨v, hv, ?_⟩
      simp only [List.length_append, List.length_cons, List.length_reverse] at hlength
      omega
    · rw [run_of_fused_le heq.ge, ← heq, Nat.sub_self]
      refine ⟨_, run_uncounted c _ (by simp), ?_⟩
      simp only [List.length_append, List.length_cons, List.length_reverse]
      omega
    · obtain ⟨k, hk⟩ : ∃ k, m - yes.fused = k + 1 := ⟨m - yes.fused - 1, by omega⟩
      rw [run_of_fused_le hgt.le, hk, Scan.run_counted hcolon]
      obtain ⟨v, hv, hlength⟩ := ihno (n := k) (by omega) _ _ _
      refine ⟨v, hv, ?_⟩
      simp only [List.length_append, List.length_cons, List.length_reverse] at hlength
      omega

end Conditional

end Extent

open Extent

/-- Before the end of the text, a line break, a closing bracket or a `:`, an expression of nested
conditionals is found as a whole exactly where none of its question marks stands directly before a
point. -/
theorem extent_conditional_iff (e : Conditional) {t : List Char} (ht : Stops .inline 0 t) :
    extent .inline (e.text ++ t) = .upTo e.text ↔ e.fused = 0 := by
  constructor
  · intro hfound
    by_contra hfused
    obtain ⟨v, hv, hlength⟩ :=
      Conditional.exists_short_of_lt_fused (Nat.pos_of_ne_zero hfused) [] [] t
    obtain rfl := Extent.upTo.inj (hv.symm.trans hfound)
    exact Nat.lt_irrefl _ hlength
  · intro hfused
    obtain ⟨c, hc, -⟩ := e.text_head
    have hne : e.text.reverse ++ ([] ++ []) ≠ [] := by
      intro hnil
      rw [List.append_nil, List.append_nil, List.reverse_eq_nil_iff] at hnil
      rw [hnil] at hc
      contradiction
    have hrun := Conditional.run_of_fused_le hfused.le [] [] t
    rw [hfused] at hrun
    refine hrun.trans ((Scan.run_stops (by decide) ht hne).trans ?_)
    simp

/-- A conditional in the first branch of another one, before the tag that follows the expression. -/
theorem extent_conditional_iff_nested :
    extent .inline (['a', '?', 'b', '?', ' ', '.', '5', ':', 'c', ':', 'd'] ++ [':', 'p']) =
      .upTo ['a', '?', 'b', '?', ' ', '.', '5', ':', 'c', ':', 'd'] := by
  have hname : ∀ c, isNameChar c = true → c.isDigit = false → IsOperand [c] :=
    fun _ hc hdigit ↦ .name (isIdentifier_singleton hc hdigit)
  have hnumber : IsOperand ['.', '5'] :=
    .number (.mantissa (.fraction ⟨by simp, '5', rfl, rfl⟩))
  let none : Gap := ⟨[], List.forall_mem_nil _⟩
  let inner : Conditional := .choice ['b'] (hname 'b' rfl rfl) none ⟨[' '], by simp [isSpacing]⟩
    (.operand ['.', '5'] hnumber) none none (.operand ['c'] (hname 'c' rfl rfl))
  let outer : Conditional := .choice ['a'] (hname 'a' rfl rfl) none none inner none none
    (.operand ['d'] (hname 'd' rfl rfl))
  have hstops : Stops .inline 0 [':', 'p'] :=
    .inr (.inr (.inl ⟨List.mem_singleton_self ':', fun _ ↦ rfl⟩))
  exact (extent_conditional_iff outer hstops).2 rfl

/-- Without a space before it, the fraction turns the question mark into another operator. -/
theorem extent_conditional_fraction :
    ∃ e : Conditional, e.text = ['a', '?', '.', '5', ':', 'b'] ∧
      extent .inline e.text = .upTo ['a', '?', '.', '5'] := by
  have hname : ∀ c, isNameChar c = true → c.isDigit = false → IsOperand [c] :=
    fun _ hc hdigit ↦ .name (isIdentifier_singleton hc hdigit)
  have hnumber : IsOperand ['.', '5'] :=
    .number (.mantissa (.fraction ⟨by simp, '5', rfl, rfl⟩))
  exact ⟨.choice ['a'] (hname 'a' rfl rfl) ⟨[], List.forall_mem_nil _⟩ ⟨[], List.forall_mem_nil _⟩
    (.operand ['.', '5'] hnumber) ⟨[], List.forall_mem_nil _⟩ ⟨[], List.forall_mem_nil _⟩
    (.operand ['b'] (hname 'b' rfl rfl)), rfl, rfl⟩

end Pug

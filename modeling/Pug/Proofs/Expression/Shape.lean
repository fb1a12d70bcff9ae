import Pug.Proofs.Expression.Delimited
import Pug.Proofs.Text.ExtentEnding

/-!
# The shapes of expressions

The loose parser tells the shape of an expression by a scan of its own, which counts parentheses and
knows no other bracket. On a text whose brackets and quotes are balanced it passes what stands in
brackets as a whole, and so it agrees with the scan that finds the extent: `Items` gives the group
that an opening parenthesis starts, and `afterGroup` has to end where that group does.
-/

namespace Pug

open Text Extent

namespace Shape

variable {mode : Mode} {n k depth : Nat} {c q : Char} {quote : Option Char}
variable {name text g l w rest more : List Char}

/-- A name is made of the characters of names and starts with no digit and no hyphen. -/
structure IsName (name : List Char) : Prop where
  chars : ∀ c ∈ name, isNameChar c = true
  head : ∃ c ∈ name.head?, c.isDigit = false ∧ c ≠ '-'

/-- The text is the name, and blanks may stand behind it. -/
structure IsNamed (name text : List Char) : Prop where
  isName : IsName name
  eq : ∃ blanks, (∀ c ∈ blanks, isBlank c = true) ∧ text = name ++ blanks

/-- The text is the name, blanks, and one group of parentheses, which the last character closes. -/
structure IsCalled (name text : List Char) : Prop where
  isName : IsName name
  eq : ∃ blanks g, (∀ c ∈ blanks, isBlank c = true) ∧ Inside .inline g ∧
    text = name ++ (blanks ++ '(' :: (g ++ [')']))

/-! ### The end of a group -/

/-- Behind an opening quote the parenthesis is looked for where the string ends. -/
theorem afterGroup_literal (hq : isQuote q = true) (h : Literal q l) (depth : Nat)
    (rest : List Char) : afterGroup (some q) depth (l ++ rest) = afterGroup none depth rest := by
  induction h with
  | close =>
    rw [List.cons_append, afterGroup_string]
    simp [(Scan.unbroken_of_isQuote hq).2]
  | hidden _ ih =>
    rw [← ih, List.cons_append, afterGroup_string]
    rfl
  | char hslash hquote _ _ ih =>
    rw [← ih, List.cons_append, afterGroup_string]
    simp [hslash, hquote]

/-- Outside strings nothing but a quote and a parenthesis is counted. -/
theorem afterGroup_other (hq : isQuote c = false) (ho : c ≠ '(') (hc : c ≠ ')') (depth : Nat)
    (rest : List Char) : afterGroup none depth (c :: rest) = afterGroup none depth rest := by
  rw [afterGroup.eq_def]
  simp [hq, ho, hc]

/-- A balanced text is passed as a whole. -/
theorem afterGroup_balanced (h : Balanced g) (depth : Nat) (rest : List Char) :
    afterGroup none depth (g ++ rest) = afterGroup none depth rest := by
  induction h generalizing depth rest with
  | nil => rfl
  | @literal q l cs hq hl _ ih =>
    have hopen : afterGroup none depth (q :: (l ++ cs) ++ rest) =
        afterGroup (some q) depth (l ++ (cs ++ rest)) := by
      rw [List.cons_append, List.append_assoc, afterGroup.eq_def]
      exact if_pos hq
    rw [hopen, afterGroup_literal hq hl, ih]
  | @group o d g cs ho _ _ ihg ih =>
    rw [List.cons_append, List.append_assoc, List.cons_append]
    by_cases hparen : o = '('
    · subst hparen
      obtain rfl : ')' = d := Option.some.inj ho
      rw [← ih depth rest]
      exact ihg (depth + 1) (')' :: (cs ++ rest))
    · -- Brackets of other kinds are passed one by one.
      have hother : isQuote o = false ∧ isQuote d = false ∧ d ≠ '(' ∧ d ≠ ')' := by
        have hos : o = '[' ∨ o = '\x7b' := by
          by_contra hno
          simp only [not_or] at hno
          simp [closer?, hparen, hno] at ho
        rcases hos with rfl | rfl <;> cases ho <;> decide
      obtain ⟨hqo, hqd, hd, hd'⟩ := hother
      have hclose : o ≠ ')' := by
        rintro rfl
        contradiction
      rw [afterGroup_other hqo hparen hclose, ihg, afterGroup_other hqd hd hd', ih]
  | char hq ho hc _ ih =>
    rw [List.cons_append, afterGroup_other hq, ih]
    · rintro rfl
      contradiction
    · rintro rfl
      contradiction

/-- A group ends at the parenthesis behind a balanced text. -/
theorem afterGroup_closed (h : Balanced g) (rest : List Char) :
    afterGroup none 0 (g ++ ')' :: rest) = some rest :=
  afterGroup_balanced h 0 (')' :: rest)

/-- Where a group ends does not depend on what stands behind it. -/
theorem afterGroup_append (h : afterGroup quote depth text = some rest) (more : List Char) :
    afterGroup quote depth (text ++ more) = some (rest ++ more) := by
  fun_induction afterGroup quote depth text with
  | case1 => contradiction
  | case2 => contradiction
  | case3 quote depth c hc d rest ih =>
    rw [← ih h, List.cons_append, List.cons_append, afterGroup.eq_def]
    exact if_pos hc
  | case4 quote depth c rest hc ih =>
    rw [← ih h, List.cons_append, afterGroup.eq_def]
    exact if_neg hc
  | case5 depth c rest hc ih =>
    rw [← ih h, List.cons_append, afterGroup.eq_def]
    exact if_pos hc
  | case6 depth c rest hq hc ih =>
    rw [← ih h, List.cons_append, afterGroup.eq_def]
    exact (if_neg hq).trans (if_pos hc)
  | case7 c rest hq ho hc =>
    cases h
    rw [List.cons_append, afterGroup.eq_def]
    exact (if_neg hq).trans ((if_neg ho).trans (if_pos hc))
  | case8 c rest hq ho hc depth ih =>
    rw [← ih h, List.cons_append, afterGroup.eq_def]
    exact (if_neg hq).trans ((if_neg ho).trans (if_pos hc))
  | case9 depth c rest hq ho hc ih =>
    rw [← ih h, List.cons_append, afterGroup.eq_def]
    exact (if_neg hq).trans ((if_neg ho).trans (if_neg hc))

/-! ### The rows that names and groups start -/

/-- The characters that a row of items goes on behind as it would without them. -/
structure IsPassed (c : Char) : Prop where
  unquoted : isQuote c = false
  opens : closer? c = none
  question : c ≠ '?'
  colon : c ≠ ':'

/-- A class of characters is passed if it has none of those that a row takes in a way of their own. -/
theorem IsPassed.of_class {p : Char → Bool}
    (hp : ['"', '\'', '\x60', '(', '[', '\x7b', '?', ':'].all (fun x ↦ !p x) = true)
    (hc : p c = true) : IsPassed c := by
  have hno : ∀ x ∈ ['"', '\'', '\x60', '(', '[', '\x7b', '?', ':'], c ≠ x := by
    rintro x hx rfl
    have := List.all_eq_true.1 hp c hx
    rw [hc] at this
    contradiction
  simp only [List.forall_mem_cons] at hno
  obtain ⟨hdouble, hsingle, hback, hparen, hsquare, hcurly, hquestion, hcolon, -⟩ := hno
  exact ⟨by simp [isQuote, hdouble, hsingle, hback], by simp [closer?, hparen, hsquare, hcurly],
    hquestion, hcolon⟩

theorem isPassed_of_isNameChar (h : isNameChar c = true) : IsPassed c :=
  .of_class (by decide) h

theorem isPassed_of_isBlank (h : isBlank c = true) : IsPassed c :=
  .of_class (by decide) h

/-- No blank stands in a name. -/
theorem isNameChar_of_isBlank (h : isBlank c = true) : isNameChar c = false := by
  rw [Bool.eq_false_iff]
  intro hname
  simp only [isNameChar, Char.isAlphanum, Char.isAlpha, Char.isUpper, Char.isLower, Char.isDigit,
    Bool.or_eq_true, Bool.and_eq_true, decide_eq_true_eq, beq_iff_eq] at hname
  simp only [isBlank, Bool.or_eq_true, Bool.and_eq_true, decide_eq_true_eq, beq_iff_eq] at h
  rcases hname with ((hascii | rfl) | rfl) | rfl
  · change (65 ≤ c.toNat ∧ c.toNat ≤ 90 ∨ 97 ≤ c.toNat ∧ c.toNat ≤ 122) ∨
      48 ≤ c.toNat ∧ c.toNat ≤ 57 at hascii
    omega
  all_goals
    revert h
    decide

end Shape

namespace Extent

variable {mode : Mode} {n k : Nat} {c : Char} {v w : List Char}

/-- What stands behind a character that is passed is a row if all of it is. -/
theorem Items.of_passed (hc : Shape.IsPassed c) (h : Items mode n (c :: w) k) :
    Items mode n w k := by
  cases h with
  | literal hq => exact absurd (hq.symm.trans hc.unquoted) (by decide)
  | group ho => exact absurd (ho.symm.trans hc.opens) nofun
  | pair => exact absurd rfl hc.question
  | optional => exact absurd rfl hc.question
  | condition => exact absurd rfl hc.question
  | colon => exact absurd rfl hc.colon
  | char _ _ _ rest => exact rest

theorem Items.of_passed_append (hv : ∀ c ∈ v, Shape.IsPassed c) (h : Items mode n (v ++ w) k) :
    Items mode n w k := by
  induction v with
  | nil => exact h
  | cons c v ih =>
    rw [List.forall_mem_cons] at hv
    exact ih hv.2 (h.of_passed hv.1)

/-- What stands in brackets is balanced where they let no line break pass. -/
theorem Inside.balanced_inline {g : List Char} (h : Inside .inline g) : Balanced g := by
  refine h.balanced ?_
  rintro _ ⟨⟩

/-- A row that a parenthesis starts is a group and what stands behind it. -/
theorem Items.exists_group (h : Items mode n ('(' :: w) k) :
    ∃ g others, w = g ++ ')' :: others ∧ Inside mode g := by
  cases h with
  | literal hq => contradiction
  | group ho hg _ =>
    obtain rfl : ')' = _ := Option.some.inj ho
    exact ⟨_, _, rfl, hg⟩
  | char hc => exact absurd hc.opens (by decide)

end Extent

namespace Shape

variable {name text rest trail : List Char} {n k : Nat}

/-! ### Names and calls -/

/-- The shape is told by what follows the name. -/
theorem ofText_append (hname : IsName name) (hrest : ∀ c ∈ rest.head?, isNameChar c = false) :
    ofText (name ++ rest) = match trimStart rest with
      | [] => .identifier
      | '(' :: rest => if afterGroup none 0 rest == some [] then .callOnIdentifier else .other
      | _ => .other := by
  obtain ⟨hchars, c, hc, hdigit, hhyphen⟩ := hname
  obtain ⟨cs, rfl⟩ := List.head?_eq_some_iff.1 hc
  have hdrop : ((c :: cs) ++ rest).dropWhile isNameChar = rest := by
    rw [List.dropWhile_append_of_pos hchars, dropWhile_eq_self hrest]
  have hfront : ¬(!isNameChar c || c.isDigit || c == '-') = true := by
    simp [hchars c (List.mem_cons_self ..), hdigit, hhyphen]
  have hshape : ofText (c :: (cs ++ rest)) = _ := if_neg hfront
  rw [← List.cons_append, hdrop] at hshape
  exact hshape

/-- What is not of another shape starts with a name. -/
theorem exists_name_of_ofText (h : ofText text ≠ .other) : ∃ name rest, text = name ++ rest ∧
    IsName name ∧ ∀ c ∈ rest.head?, isNameChar c = false := by
  cases text with
  | nil => exact absurd rfl h
  | cons c cs =>
    rw [ofText] at h
    split at h
    · exact absurd rfl h
    · rename_i hc
      simp only [Bool.or_eq_true, Bool.not_eq_true', beq_iff_eq, not_or, Bool.not_eq_false,
        Bool.not_eq_true] at hc
      refine ⟨(c :: cs).takeWhile isNameChar, (c :: cs).dropWhile isNameChar,
        List.takeWhile_append_dropWhile.symm, ⟨fun x hx ↦ List.mem_takeWhile_imp hx, c, ?_, hc.1.2, hc.2⟩,
        head_dropWhile isNameChar _⟩
      rw [List.takeWhile_cons_of_pos hc.1.1]
      rfl

theorem ofText_of_isNamed (h : IsNamed name text) : ofText text = .identifier := by
  obtain ⟨hname, blanks, hblanks, rfl⟩ := h
  have hrest : ∀ c ∈ blanks.head?, isNameChar c = false := fun c hc ↦
    isNameChar_of_isBlank (hblanks c (List.mem_of_mem_head? hc))
  have htrim : trimStart blanks = [] := List.dropWhile_eq_nil_iff.2 hblanks
  rw [ofText_append hname hrest, htrim]

theorem ofText_of_isCalled (h : IsCalled name text) : ofText text = .callOnIdentifier := by
  obtain ⟨hname, blanks, g, hblanks, hg, rfl⟩ := h
  have hrest : ∀ c ∈ (blanks ++ '(' :: (g ++ [')'])).head?, isNameChar c = false := by
    intro c hc
    cases blanks with
    | nil =>
      obtain rfl := Option.some.inj hc
      rfl
    | cons b blanks =>
      obtain rfl := Option.some.inj hc
      exact isNameChar_of_isBlank (hblanks b (List.mem_cons_self ..))
  have htrim : trimStart (blanks ++ '(' :: (g ++ [')'])) = '(' :: (g ++ [')']) := by
    rw [trimStart, List.dropWhile_append_of_pos hblanks]
    rfl
  have hgroup : afterGroup none 0 (g ++ [')']) = some [] :=
    afterGroup_closed hg.balanced_inline []
  rw [ofText_append hname hrest, htrim]
  simp [hgroup]

theorem exists_isNamed (h : ofText text = .identifier) : ∃ name, IsNamed name text := by
  obtain ⟨name, rest, rfl, hname, hrest⟩ := exists_name_of_ofText (by rw [h]; decide)
  rw [ofText_append hname hrest] at h
  refine ⟨name, hname, rest, ?_, rfl⟩
  split at h
  · rename_i htrim
    exact List.dropWhile_eq_nil_iff.1 htrim
  · split at h <;> contradiction
  · contradiction

/-- At the front of a row of items, what looks like a call is one: the group that the parenthesis
starts there ends where the text does. -/
theorem exists_isCalled (h : ofText text = .callOnIdentifier)
    (hitems : Items .inline n (text ++ trail) k) : ∃ name, IsCalled name text := by
  obtain ⟨name, rest, rfl, hname, hrest⟩ := exists_name_of_ofText (by rw [h]; decide)
  rw [ofText_append hname hrest] at h
  split at h
  · contradiction
  · rename_i inner htrim
    split at h
    · rename_i hgroup
      rw [beq_iff_eq] at hgroup
      have hsplit : rest = rest.takeWhile isBlank ++ '(' :: inner := by
        rw [← htrim]
        exact List.takeWhile_append_dropWhile.symm
      have hblanks : ∀ c ∈ rest.takeWhile isBlank, isBlank c = true :=
        fun c hc ↦ List.mem_takeWhile_imp hc
      -- The row goes on behind the name and the blanks with the group.
      rw [hsplit, List.append_assoc, List.append_assoc] at hitems
      obtain ⟨g, others, hinner, hg⟩ := ((hitems.of_passed_append fun c hc ↦
        isPassed_of_isNameChar (hname.chars c hc)).of_passed_append fun c hc ↦
          isPassed_of_isBlank (hblanks c hc)).exists_group
      replace hinner : inner ++ trail = g ++ ')' :: others := hinner
      have hends := afterGroup_append hgroup trail
      rw [hinner, afterGroup_closed hg.balanced_inline] at hends
      obtain rfl : others = trail := Option.some.inj hends
      have hwhole : inner = g ++ [')'] := by
        have htrail : inner ++ others = (g ++ [')']) ++ others := by
          rw [hinner, List.append_assoc]
          rfl
        exact List.append_cancel_right htrail
      exact ⟨name, hname, _, g, hblanks, hg, by rw [← hwhole, ← hsplit]⟩
    · contradiction
  · contradiction

end Shape

end Pug

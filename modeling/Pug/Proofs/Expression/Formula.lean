import Pug.Proofs.Expression.Pieces
import Pug.Proofs.Expression.Torn

/-!
# Spacing inside the values of attributes

The attributes of a list may be separated by nothing but spaces, so every space outside brackets may
end a value. A scan looks at what stands on both sides of it. This file writes expressions from operands
and operators, with spaces around every operator, and shows that a scan goes on at each of these spaces
and stops at the first one behind the expression.

Two facts about what a scan has read, backwards, carry the induction. `Clears` says that no word reaches
into what follows, so that an operator that is a word is read as that word. `EndsOperand` says that a text
ends in an operand, so that nothing but an operator joins it to what follows.
-/

namespace Pug

open Text

namespace Extent

/-! ### The judgement on a gap -/

/-- No word stands at the end of the text, which is given backwards. -/
def Clears (before : List Char) : Prop :=
  ∀ c ∈ before.head?, isWordChar c = false ∧ c.utf8Size = 1

/-- The text, which is given backwards, ends in no operator, and in no word that is one or that starts
inside a character. -/
structure EndsOperand (before : List Char) : Prop where
  operator : ∀ c ∈ before.head?, isOperatorChar c = false
  whole : ∀ c ∈ (before.dropWhile isWordChar).head?, c.utf8Size = 1
  word : String.ofList (before.takeWhile isWordChar).reverse ∉ wordOperators

/-- The text starts with no operator, and with no word that is one. -/
structure StartsApart (next : List Char) : Prop where
  operator : ∀ c ∈ next.head?, isOperatorChar c = false
  word : String.ofList (next.takeWhile isWordChar) ∉ wordOperators

/-- A nonempty row of letters, digits, `_` and `$`. -/
structure IsWord (w : List Char) : Prop where
  nonempty : w ≠ []
  chars : ∀ c ∈ w, isWordChar c = true

section

variable {before after w : List Char} {c : Char} {word : String}

/-- The characters that operators are made of belong to no word. -/
theorem of_isOperatorChar (h : isOperatorChar c = true) :
    isWordChar c = false ∧ c.utf8Size = 1 := by
  have hall : "+-*/%&|^<>=!?:~.".toList.all
      (fun c ↦ !isWordChar c && c.utf8Size == 1) = true := by decide
  simpa using List.all_eq_true.1 hall c (List.contains_iff_mem.1 h)

theorem isOperatorChar_of_isWordChar (h : isWordChar c = true) : isOperatorChar c = false := by
  rw [Bool.eq_false_iff]
  intro hc
  rw [(of_isOperatorChar hc).1] at h
  contradiction

theorem of_isSpacing (h : isSpacing c = true) : isWordChar c = false ∧ c.utf8Size = 1 := by
  rw [isSpacing, Bool.or_eq_true, beq_iff_eq, beq_iff_eq] at h
  rcases h with rfl | rfl <;> decide

theorem IsWord.isRow (h : IsWord w) : IsRow w :=
  ⟨h.nonempty, fun c hc ↦ isOrdinary_of_isNameChar (by simp [isNameChar, h.chars c hc])⟩

/-- The operators that are words are words. -/
theorem isWord_of_mem (h : word ∈ wordOperators) : IsWord word.toList := by
  have hall : ∀ word ∈ wordOperators, word.toList ≠ [] ∧ word.toList.all isWordChar = true := by
    decide
  exact ⟨(hall word h).1, List.all_eq_true.1 (hall word h).2⟩

theorem clears_nil : Clears [] := by
  rintro _ ⟨⟩

theorem clears_of_isOperatorChar (h : isOperatorChar c = true) : Clears (c :: before) := by
  rintro _ ⟨⟩
  exact of_isOperatorChar h

/-- No word stands at the end of a gap. -/
theorem Clears.gap (h : Clears before) (g : Gap) : Clears (g.chars.reverse ++ before) := by
  intro c hc
  cases hg : g.chars.reverse with
  | nil => exact h c (by simpa [hg] using hc)
  | cons x xs =>
    rw [hg] at hc
    obtain rfl := Option.some.inj hc
    exact of_isSpacing (g.spacing x (List.mem_reverse.1 (by simp [hg])))

theorem clears_gap (g : Gap) (h : g.chars ≠ []) (before : List Char) :
    Clears (g.chars.reverse ++ before) := by
  intro c hc
  have hmem : c ∈ g.chars.reverse := by
    rw [List.head?_append_of_ne_nil _ (by simpa using h)] at hc
    exact List.mem_of_mem_head? hc
  exact of_isSpacing (g.spacing c (List.mem_reverse.1 hmem))

/-- A word that follows no word is read as it is. -/
theorem takeWhile_dropWhile_of_clears (hw : ∀ c ∈ w, isWordChar c = true) (h : Clears before) :
    (w ++ before).takeWhile isWordChar = w ∧ (w ++ before).dropWhile isWordChar = before := by
  rw [List.takeWhile_append_of_pos hw, List.dropWhile_append_of_pos hw]
  cases before with
  | nil => simp
  | cons c before =>
    have hc : ¬isWordChar c = true := by simp [(h c rfl).1]
    rw [List.takeWhile_cons_of_neg hc, List.dropWhile_cons_of_neg hc, List.append_nil]
    exact ⟨rfl, rfl⟩

/-- Only the words are left to judge by where a whole character stands before the last one. -/
theorem joint_of_whole (h : ∀ c ∈ (before.dropWhile isWordChar).head?, c.utf8Size = 1)
    (hword : String.ofList (before.takeWhile isWordChar).reverse ∈ wordOperators ∨
      String.ofList ((after.dropWhile isSpacing).takeWhile isWordChar) ∈ wordOperators) :
    joint before after = .joined := by
  have hwhole : ((before.dropWhile isWordChar).head?.any fun c ↦ c.utf8Size != 1) = false := by
    rw [any_eq_false_iff]
    intro c hc
    simp [h c hc]
  unfold joint
  dsimp only
  rw [hwhole]
  split
  · rfl
  · simp [hword]

/-- A word that is an operator joins a gap that follows it. -/
theorem joint_of_word_before (hword : word ∈ wordOperators) (h : Clears before) :
    joint (word.toList.reverse ++ before) after = .joined := by
  have hchars : ∀ c ∈ word.toList.reverse, isWordChar c = true :=
    fun c hc ↦ (isWord_of_mem hword).chars c (List.mem_reverse.1 hc)
  obtain ⟨htake, hdrop⟩ := takeWhile_dropWhile_of_clears hchars h
  refine joint_of_whole ?_ (.inl ?_)
  · rw [hdrop]
    exact fun c hc ↦ (h c hc).2
  · rw [htake, List.reverse_reverse, String.ofList_toList]
    exact hword

/-- A word that is an operator joins a gap that it follows. -/
theorem joint_of_word_behind (h : EndsOperand before) (hword : word ∈ wordOperators)
    (hafter : Clears after) : joint before (word.toList ++ after) = .joined := by
  obtain ⟨hne, hchars⟩ := isWord_of_mem hword
  have hspacing : (word.toList ++ after).dropWhile isSpacing = word.toList ++ after := by
    obtain ⟨c, cs, hcs⟩ := List.exists_cons_of_ne_nil hne
    have hc : ¬isSpacing c = true := by
      intro hsp
      have hc := hchars c (by simp [hcs])
      rw [(of_isSpacing hsp).1] at hc
      contradiction
    rw [hcs]
    exact List.dropWhile_cons_of_neg hc
  refine joint_of_whole h.whole (.inr ?_)
  rw [hspacing, (takeWhile_dropWhile_of_clears hchars hafter).1, String.ofList_toList]
  exact hword

/-- Nothing joins an operand to what starts apart from it. -/
theorem joint_eq_apart (h : EndsOperand before) (hafter : StartsApart (after.dropWhile isSpacing)) :
    joint before after = .apart := by
  have hwhole : ((before.dropWhile isWordChar).head?.any fun c ↦ c.utf8Size != 1) = false := by
    rw [any_eq_false_iff]
    intro c hc
    simp [h.whole c hc]
  unfold joint
  dsimp only
  rw [hwhole, any_eq_false_iff.2 h.operator, any_eq_false_iff.2 hafter.operator]
  simp [h.word, hafter.word]

end

/-! ### Operands and operators -/

/-- The words that stand before an operand. -/
def leadingWords : List String :=
  ["typeof", "new", "void", "delete", "await"]

/-- The words that stand between two operands. -/
def relatingWords : List String :=
  ["in", "of", "instanceof"]

/-- An operand: a word that is no operator, a number, a string or a group, and groups directly behind
it. -/
inductive IsFactor : List Char → Prop
  | word {w : List Char} (h : IsWord w) (hw : String.ofList w ∉ wordOperators) : IsFactor w
  | number {w : List Char} (hne : w ≠ []) (h : ∀ c ∈ w, c.isDigit = true) : IsFactor w
  | enclosed {w : List Char} (h : IsEnclosed .attributeValue w) : IsFactor w
  | applied {w g : List Char} {o d : Char} (h : IsFactor w) (ho : closer? o = some d)
      (hg : Inside .attributeValue g) : IsFactor (w ++ o :: (g ++ [d]))

/-- The marks that stand between two operands. -/
inductive IsSymbol : List Char → Prop
  | row {w : List Char} (hne : w ≠ []) (h : ∀ c ∈ w, c ∈ "+-*/%&|^<>=!~.".toList) : IsSymbol w
  | coalesce : IsSymbol ['?', '?']

theorem mem_wordOperators_of_leading {word : String} (h : word ∈ leadingWords) :
    word ∈ wordOperators := by
  have hall : ∀ word ∈ leadingWords, word ∈ wordOperators := by decide
  exact hall word h

theorem mem_wordOperators_of_relating {word : String} (h : word ∈ relatingWords) :
    word ∈ wordOperators := by
  have hall : ∀ word ∈ relatingWords, word ∈ wordOperators := by decide
  exact hall word h

section

variable {before w : List Char} {c : Char}

/-- A word that is no operator ends an operand where it follows no other word. -/
theorem endsOperand_of_word (h : IsWord w) (hw : String.ofList w ∉ wordOperators)
    (hbefore : Clears before) : EndsOperand (w.reverse ++ before) := by
  have hchars : ∀ c ∈ w.reverse, isWordChar c = true :=
    fun c hc ↦ h.chars c (List.mem_reverse.1 hc)
  obtain ⟨htake, hdrop⟩ := takeWhile_dropWhile_of_clears hchars hbefore
  refine ⟨?_, ?_, ?_⟩
  · intro c hc
    rw [List.head?_append_of_ne_nil _ (by simpa using h.nonempty)] at hc
    exact isOperatorChar_of_isWordChar (hchars c (List.mem_of_mem_head? hc))
  · rw [hdrop]
    exact fun c hc ↦ (hbefore c hc).2
  · rwa [htake, List.reverse_reverse]

/-- So does a mark that belongs to no word and to no operator. -/
theorem endsOperand_of_mark (hoperator : isOperatorChar c = false) (hword : isWordChar c = false)
    (hsize : c.utf8Size = 1) : EndsOperand (c :: before) := by
  have hc : ¬isWordChar c = true := by simp [hword]
  refine ⟨?_, ?_, ?_⟩
  · rintro _ ⟨⟩
    exact hoperator
  · rw [List.dropWhile_cons_of_neg hc]
    rintro _ ⟨⟩
    exact hsize
  · rw [List.takeWhile_cons_of_neg hc]
    decide

theorem endsOperand_of_isCloser (h : isCloser c = true) : EndsOperand (c :: before) := by
  have hcs : c = ')' ∨ c = ']' ∨ c = '\x7d' := by
    simpa [isCloser, or_assoc] using h
  rcases hcs with rfl | rfl | rfl <;> exact endsOperand_of_mark (by decide) (by decide) (by decide)

theorem endsOperand_of_isQuote (h : isQuote c = true) : EndsOperand (c :: before) := by
  have hcs : c = '"' ∨ c = '\'' ∨ c = '\x60' := by
    simpa [isQuote, or_assoc] using h
  rcases hcs with rfl | rfl | rfl <;> exact endsOperand_of_mark (by decide) (by decide) (by decide)

/-- No operator is a number. -/
theorem isWord_of_digits (hne : w ≠ []) (h : ∀ c ∈ w, c.isDigit = true) :
    IsWord w ∧ String.ofList w ∉ wordOperators := by
  refine ⟨⟨hne, fun c hc ↦ by simp [isWordChar, Char.isAlphanum, h c hc]⟩, ?_⟩
  intro hmem
  have hall : ∀ word ∈ wordOperators, word.toList.all Char.isDigit = false := by decide
  have hdigits := hall _ hmem
  rw [String.toList_ofList, List.all_eq_true.2 h] at hdigits
  contradiction

theorem IsFactor.keeps (h : IsFactor w) : Keeps .attributeValue w := by
  induction h with
  | word h _ => exact h.isRow.keeps
  | number hne h => exact (isWord_of_digits hne h).1.isRow.keeps
  | enclosed h => exact h.keeps
  | applied _ ho hg ih => exact ih.append (IsEnclosed.group ho hg).keeps

/-- An operand ends as an operand, where it follows no word. -/
theorem IsFactor.endsOperand (h : IsFactor w) (hbefore : Clears before) :
    EndsOperand (w.reverse ++ before) := by
  cases h with
  | word h hw => exact endsOperand_of_word h hw hbefore
  | number hne h =>
    obtain ⟨hword, hw⟩ := isWord_of_digits hne h
    exact endsOperand_of_word hword hw hbefore
  | enclosed h =>
    cases h with
    | @literal q l hq hl =>
      obtain ⟨cs, rfl⟩ := hl.exists_concat
      have hend : (q :: (cs ++ [q])).reverse ++ before = q :: (cs.reverse ++ q :: before) := by simp
      rw [hend]
      exact endsOperand_of_isQuote hq
    | @group o d g ho hg =>
      have hend : (o :: (g ++ [d])).reverse ++ before = d :: (g.reverse ++ o :: before) := by simp
      rw [hend]
      exact endsOperand_of_isCloser (Scan.isCloser_of_closer ho)
  | @applied v g o d h ho hg =>
    have hend : (v ++ o :: (g ++ [d])).reverse ++ before =
        d :: (g.reverse ++ o :: (v.reverse ++ before)) := by simp
    rw [hend]
    exact endsOperand_of_isCloser (Scan.isCloser_of_closer ho)

/-- An operand starts with neither a point nor a question mark. -/
theorem IsFactor.head (h : IsFactor w) : ∃ c ∈ w.head?, c ≠ '.' ∧ c ≠ '?' := by
  have hword : ∀ {v : List Char}, IsWord v → ∃ c ∈ v.head?, c ≠ '.' ∧ c ≠ '?' := by
    intro v hv
    obtain ⟨c, cs, rfl⟩ := List.exists_cons_of_ne_nil hv.nonempty
    have hc := hv.chars c List.mem_cons_self
    refine ⟨c, rfl, ?_, ?_⟩ <;> (rintro rfl; contradiction)
  induction h with
  | word h _ => exact hword h
  | number hne h => exact hword (isWord_of_digits hne h).1
  | enclosed h =>
    cases h with
    | @literal q l hq _ =>
      refine ⟨q, rfl, ?_, ?_⟩ <;> (rintro rfl; contradiction)
    | @group o d g ho _ =>
      refine ⟨o, rfl, ?_, ?_⟩ <;> (rintro rfl; contradiction)
  | applied _ _ _ ih =>
    obtain ⟨c, hc, hne⟩ := ih
    exact ⟨c, by simp [Option.mem_def.1 hc], hne⟩

theorem IsSymbol.keeps (h : IsSymbol w) : Keeps .attributeValue w := by
  cases h with
  | row hne h =>
    have hall : "+-*/%&|^<>=!~.".toList.all isOrdinary = true := by decide
    exact IsRow.keeps ⟨hne, fun c hc ↦ List.all_eq_true.1 hall c (h c hc)⟩
  | coalesce =>
    intro kept gap n rest
    exact Scan.run_pair rest

/-- A mark between operands is made of the characters of operators. -/
theorem IsSymbol.chars (h : IsSymbol w) : w ≠ [] ∧ ∀ c ∈ w, isOperatorChar c = true := by
  cases h with
  | row hne h =>
    have hall : "+-*/%&|^<>=!~.".toList.all isOperatorChar = true := by decide
    exact ⟨hne, fun c hc ↦ List.all_eq_true.1 hall c (h c hc)⟩
  | coalesce => exact ⟨List.cons_ne_nil _ _, by simp; decide⟩

end

/-! ### Expressions -/

/-- An expression of operands and operators, with the gaps around its operators. -/
inductive Formula where
  | factor (text : List Char) (h : IsFactor text)
  | signed (a : Gap) (sign : Char) (h : sign ∈ ['!', '~', '+', '-']) (b : Gap) (e : Formula)
  | worded (word : String) (h : word ∈ leadingWords) (a : Gap) (ha : a.chars ≠ []) (e : Formula)
  | joined (left : Formula) (a : Gap) (symbol : List Char) (h : IsSymbol symbol) (b : Gap)
      (right : Formula)
  | related (left : Formula) (a : Gap) (ha : a.chars ≠ []) (word : String)
      (h : word ∈ relatingWords) (b : Gap) (hb : b.chars ≠ []) (right : Formula)
  | choice (test : Formula) (a b : Gap) (yes : Formula) (c d : Gap) (no : Formula)

namespace Formula

/-- The text of an expression. -/
def text : Formula → List Char
  | .factor text _ => text
  | .signed a sign _ b e => a.chars ++ sign :: (b.chars ++ e.text)
  | .worded word _ a _ e => word.toList ++ a.chars ++ e.text
  | .joined left a symbol _ b right => left.text ++ a.chars ++ symbol ++ b.chars ++ right.text
  | .related left a _ word _ b _ right =>
    left.text ++ a.chars ++ word.toList ++ b.chars ++ right.text
  | .choice test a b yes c d no =>
    test.text ++ a.chars ++ '?' :: (b.chars ++ yes.text ++ c.chars ++ ':' :: (d.chars ++ no.text))

variable {before : List Char}

theorem isOperatorChar_of_sign {sign : Char} (h : sign ∈ ['!', '~', '+', '-']) :
    isOperatorChar sign = true ∧ isOrdinary sign = true := by
  have hall : ['!', '~', '+', '-'].all (fun c ↦ isOperatorChar c && isOrdinary c) = true := by decide
  simpa using List.all_eq_true.1 hall sign h

/-- A text that ends in an operator and a gap leaves no word open. -/
theorem clears_of_symbol {symbol : List Char} (h : IsSymbol symbol) (b : Gap) :
    Clears (b.chars.reverse ++ (symbol.reverse ++ before)) := by
  obtain ⟨hne, hchars⟩ := h.chars
  refine Clears.gap ?_ b
  intro c hc
  rw [List.head?_append_of_ne_nil _ (by simpa using hne)] at hc
  exact of_isOperatorChar (hchars c (List.mem_reverse.1 (List.mem_of_mem_head? hc)))

/-- An expression ends as its last operand does. -/
theorem endsOperand (e : Formula) (hbefore : Clears before) :
    EndsOperand (e.text.reverse ++ before) := by
  induction e generalizing before with
  | factor w h => exact h.endsOperand hbefore
  | signed a sign h b e ih =>
    have hop := (isOperatorChar_of_sign h).1
    have hclears : Clears (b.chars.reverse ++ sign :: (a.chars.reverse ++ before)) :=
      (clears_of_isOperatorChar hop).gap b
    simpa [text] using ih hclears
  | worded word h a ha e ih =>
    simpa [text] using ih (clears_gap a ha (word.toList.reverse ++ before))
  | joined left a symbol h b right _ ih =>
    have hclears : Clears (b.chars.reverse ++ (symbol.reverse ++
        (a.chars.reverse ++ (left.text.reverse ++ before)))) := clears_of_symbol h b
    simpa [text] using ih hclears
  | related left a ha word h b hb right _ ih =>
    simpa [text] using ih (clears_gap b hb
      (word.toList.reverse ++ (a.chars.reverse ++ (left.text.reverse ++ before))))
  | choice test a b yes c d no _ _ ih =>
    have hclears : Clears (d.chars.reverse ++ ':' :: (c.chars.reverse ++ (yes.text.reverse ++
        (b.chars.reverse ++ '?' :: (a.chars.reverse ++ (test.text.reverse ++ before)))))) :=
      (clears_of_isOperatorChar (by decide)).gap d
    simpa [text] using ih hclears

/-- An expression starts with neither a point nor a question mark. -/
theorem text_head_ne (e : Formula) : ∃ c ∈ e.text.head?, c ≠ '.' ∧ c ≠ '?' := by
  induction e with
  | factor w h => exact h.head
  | signed a sign h b e _ =>
    cases ha : a.chars with
    | nil =>
      refine ⟨sign, by simp [text, ha], ?_⟩
      constructor <;> (rintro rfl; contradiction)
    | cons x xs =>
      have hx : isSpacing x = true := a.spacing x (by simp [ha])
      refine ⟨x, by simp [text, ha], ?_⟩
      constructor <;> (rintro rfl; contradiction)
  | worded word h a _ e _ =>
    obtain ⟨hne, hchars⟩ := isWord_of_mem (mem_wordOperators_of_leading h)
    obtain ⟨x, xs, hword⟩ := List.exists_cons_of_ne_nil hne
    have hx : isWordChar x = true := hchars x (by simp [hword])
    refine ⟨x, by simp [text, hword], ?_⟩
    constructor <;> (rintro rfl; contradiction)
  | joined left _ _ _ _ _ ih _ =>
    obtain ⟨c, hc, hne⟩ := ih
    exact ⟨c, by simp [text, Option.mem_def.1 hc], hne⟩
  | related left _ _ _ _ _ _ _ ih _ =>
    obtain ⟨c, hc, hne⟩ := ih
    exact ⟨c, by simp [text, Option.mem_def.1 hc], hne⟩
  | choice test _ _ _ _ _ _ ih _ _ =>
    obtain ⟨c, hc, hne⟩ := ih
    exact ⟨c, by simp [text, Option.mem_def.1 hc], hne⟩

end Formula

/-! ### The scan -/

namespace Formula

variable {kept gap : List Char} {n : Nat}

/-- A scan passes an operator between operands, and the gaps around it. -/
theorem run_symbol (a : Gap) {symbol : List Char} (h : IsSymbol symbol) (b : Gap)
    (rest : List Char) :
    Scan.run .attributeValue (Scan.clear kept [] [] n) (a.chars ++ (symbol ++ (b.chars ++ rest))) =
      Scan.run .attributeValue (Scan.clear (symbol.reverse ++ (a.chars.reverse ++ kept))
        b.chars.reverse [] n) rest := by
  obtain ⟨hne, hchars⟩ := h.chars
  have hbehind : joint kept (symbol ++ (b.chars ++ rest)) = .joined := by
    obtain ⟨x, xs, rfl⟩ := List.exists_cons_of_ne_nil hne
    exact joint_of_operator_behind (hchars x List.mem_cons_self) ..
  have hbefore : joint (symbol.reverse ++ (a.chars.reverse ++ kept)) rest = .joined := by
    cases hs : symbol.reverse with
    | nil => exact absurd (List.reverse_eq_nil_iff.1 hs) hne
    | cons x xs =>
      exact joint_of_operator_before (hchars x (List.mem_reverse.1 (by simp [hs]))) ..
  rw [Scan.run_gap a fun _ ↦ hbehind, List.append_nil, h.keeps, Scan.run_gap b fun _ ↦ hbefore, List.append_nil]

/-- A scan passes a word between operands, and the gaps around it. -/
theorem run_relating (hkept : EndsOperand kept) (a : Gap) (ha : a.chars ≠ []) {word : String}
    (h : word ∈ relatingWords) (b : Gap) (hb : b.chars ≠ []) (rest : List Char) :
    Scan.run .attributeValue (Scan.clear kept [] [] n)
        (a.chars ++ (word.toList ++ (b.chars ++ rest))) =
      Scan.run .attributeValue (Scan.clear (word.toList.reverse ++ (a.chars.reverse ++ kept))
        b.chars.reverse [] n) rest := by
  have hmem := mem_wordOperators_of_relating h
  have hword : Keeps .attributeValue word.toList := (isWord_of_mem hmem).isRow.keeps
  have hclears : Clears (b.chars ++ rest) := by
    obtain ⟨x, xs, hx⟩ := List.exists_cons_of_ne_nil hb
    rw [hx]
    rintro _ ⟨⟩
    exact of_isSpacing (b.spacing x (by simp [hx]))
  rw [Scan.run_gap a fun _ ↦ joint_of_word_behind hkept hmem hclears, List.append_nil, hword,
    Scan.run_gap b fun _ ↦ joint_of_word_before hmem (clears_gap a ha kept), List.append_nil]

/-- A scan passes an expression, and each of the spaces in it. -/
theorem run_text (e : Formula) (hclears : Clears (gap ++ kept)) (rest : List Char) :
    Scan.run .attributeValue (Scan.clear kept gap [] n) (e.text ++ rest) =
      Scan.run .attributeValue (Scan.clear (e.text.reverse ++ (gap ++ kept)) [] [] n) rest := by
  induction e generalizing kept gap n rest with
  | factor w h => exact h.keeps kept gap n rest
  | signed a sign h b e ih =>
    obtain ⟨hop, hordinary⟩ := isOperatorChar_of_sign h
    have hsign : ∀ kept gap rest, Scan.run .attributeValue (Scan.clear kept gap [] n) (sign :: rest) =
        Scan.run .attributeValue (Scan.clear (sign :: (gap ++ kept)) [] [] n) rest :=
      fun kept gap rest ↦ keeps_of_isOrdinary hordinary kept gap n rest
    have hnext : Clears (b.chars.reverse ++ [] ++ sign :: (a.chars.reverse ++ gap ++ kept)) := by
      rw [List.append_nil]
      exact (clears_of_isOperatorChar hop).gap b
    simp only [text, List.append_assoc, List.cons_append]
    rw [Scan.run_gap a fun _ ↦ joint_of_operator_behind hop .., hsign,
      Scan.run_gap b fun _ ↦ joint_of_operator_before hop .., ih hnext]
    simp
  | worded word h a ha e ih =>
    have hmem := mem_wordOperators_of_leading h
    have hword : Keeps .attributeValue word.toList := (isWord_of_mem hmem).isRow.keeps
    have hnext : Clears (a.chars.reverse ++ [] ++ (word.toList.reverse ++ (gap ++ kept))) := by
      rw [List.append_nil]
      exact clears_gap a ha _
    simp only [text, List.append_assoc]
    rw [hword, Scan.run_gap a fun _ ↦ joint_of_word_before hmem hclears, ih hnext]
    simp
  | joined left a symbol h b right ihl ihr =>
    simp only [text, List.append_assoc]
    rw [ihl hclears, run_symbol a h b, ihr (clears_of_symbol h b)]
    simp
  | related left a ha word h b hb right ihl ihr =>
    simp only [text, List.append_assoc]
    rw [ihl hclears, run_relating (left.endsOperand hclears) a ha h b hb,
      ihr (clears_gap b hb _)]
    simp
  | choice test a b yes c d no ihtest ihyes ihno =>
    obtain ⟨x, hx, hpoint, hquestion⟩ := yes.text_head_ne
    have hhead : ∀ t, (yes.text ++ t).head? = some x := by
      intro t
      rw [List.head?_append, Option.mem_def.1 hx]
      rfl
    have hcounted : ∀ t, lost (b.chars ++ (yes.text ++ t)) = 0 := by
      intro t
      cases hb : b.chars with
      | nil => simp [lost, hhead, hpoint]
      | cons s ss =>
        refine if_neg ?_
        rintro ⟨rfl⟩
        exact absurd (b.spacing '.' (by simp [hb])) (by decide)
    simp only [text, List.append_assoc, List.cons_append]
    rw [ihtest hclears, Scan.run_question a b ⟨x, hhead _, hquestion⟩, hcounted, Nat.sub_zero,
      ihyes ((clears_of_isOperatorChar (by decide)).gap b), Scan.run_counted (by decide),
      ihno ((clears_of_isOperatorChar (by decide)).gap d)]
    simp

end Formula

/-! ### The end of a value -/

/-- What ends the value of an attribute: the end of the text, a line break, a closing bracket, a comma or
a colon, or spacing before something that starts apart from the value. -/
def EndsValue : List Char → Prop
  | [] => True
  | c :: t => isBreak c = true ∨ isCloser c = true ∨ c ∈ separators .attributeValue ∨
      isSpacing c = true ∧ StartsApart (t.dropWhile isSpacing)

/-- A scan ends behind an operand before what ends the value. -/
theorem Scan.run_endsValue {kept t : List Char} (hkept : EndsOperand kept) (hne : kept ≠ [])
    (ht : EndsValue t) :
    Scan.run .attributeValue (Scan.clear kept [] [] 0) t = .upTo kept.reverse := by
  have hresult : (Scan.clear kept [] [] 0).result = .upTo kept.reverse := by
    rw [Scan.result, if_neg (by simpa using hne)]
  cases t with
  | nil => exact hresult
  | cons c t =>
    suffices hread : (Scan.clear kept [] [] 0).read .attributeValue c t = .stop by
      rw [Scan.run, hread]
      exact hresult
    rcases ht with hc | hc | hc | ⟨hc, ht⟩
    · rw [Scan.read_of_break rfl hc]
      rfl
    · rw [Scan.read_of_closer rfl hc]
      rfl
    · obtain ⟨hsingle, hsp⟩ := isSingle_of_separator hc
      rw [Scan.read_of_single rfl hsingle hsp]
      exact Scan.readOutside_of_separator hc fun _ ↦ rfl
    · rw [Scan.read_of_spacing rfl hc, Scan.readSpacing, joint_eq_apart hkept ht]
      simp [Scan.outside, hne]

end Extent

open Extent

/-- The value of an attribute is found as a whole, with the spaces around its operators, before whatever
ends it. -/
theorem extent_formula (e : Formula) {t : List Char} (ht : EndsValue t) :
    extent .attributeValue (e.text ++ t) = .upTo e.text := by
  obtain ⟨c, hc, -⟩ := e.text_head_ne
  have hends : EndsOperand e.text.reverse := by
    simpa using e.endsOperand clears_nil
  have hne : e.text.reverse ≠ [] := by
    intro hnil
    rw [List.reverse_eq_nil_iff.1 hnil] at hc
    contradiction
  have hrun : Scan.run .attributeValue (Scan.clear [] [] [] 0) (e.text ++ t) =
      Scan.run .attributeValue (Scan.clear (e.text.reverse ++ []) [] [] 0) t :=
    e.run_text clears_nil t
  rw [List.append_nil] at hrun
  rw [extent, Scan.init, hrun, Scan.run_endsValue hends hne ht, List.reverse_reverse]

/-- A value with two operators that are words, before the next attribute. -/
theorem extent_formula_words :
    extent .attributeValue (['a', ' ', 'i', 'n', ' ', 'n', 'e', 'w', ' ', 'b'] ++ [' ', 'c']) =
      .upTo ['a', ' ', 'i', 'n', ' ', 'n', 'e', 'w', ' ', 'b'] := by
  have hname : ∀ c, isWordChar c = true → String.ofList [c] ∉ wordOperators → IsFactor [c] :=
    fun c hc hw ↦ .word ⟨List.cons_ne_nil c [], by simpa using hc⟩ hw
  let space : Gap := ⟨[' '], by simp [isSpacing]⟩
  have hspace : space.chars ≠ [] := List.cons_ne_nil ' ' []
  let value : Formula := .related (.factor ['a'] (hname 'a' rfl (by decide))) space hspace "in"
    (by decide) space hspace
    (.worded "new" (by decide) space hspace (.factor ['b'] (hname 'b' rfl (by decide))))
  have hends : EndsValue [' ', 'c'] := by
    refine .inr (.inr (.inr ⟨rfl, ⟨?_, by decide⟩⟩))
    rintro _ ⟨⟩
    rfl
  exact extent_formula value hends

end Pug

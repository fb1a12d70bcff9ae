import Pug.Proofs.Source.Path
import Pug.Proofs.Expression.Delimited

/-!
# Where a scan is torn

A scan that finds an expression has read whole characters, at least one. The only thing that can go
wrong is the judgement on the spacing behind the value of an attribute: the word in front of the
spacing is taken to start one byte behind the last character that belongs to no word, which is
inside that character if it takes several bytes. `extent_stands` says that this happens exactly
where no operator stands on either side of the spacing and the value before it is an expression
whose last word follows such a character.
-/

namespace Pug

open Text

namespace Extent

/-- The spacing between the expression `e` and what is `after` it is judged by a word that starts
inside a character. -/
structure Severed (e after : List Char) : Prop where
  /-- No operator stands before the spacing. -/
  before : ∀ c ∈ e.getLast?, isOperatorChar c = false
  /-- And none behind it. -/
  behind : ∀ c ∈ (after.dropWhile isSpacing).head?, isOperatorChar c = false
  /-- The last word of the expression follows a character of several bytes. -/
  word : ∃ front c word, e = front ++ c :: word ∧ 1 < c.utf8Size ∧ ∀ x ∈ word, isWordChar x = true

section

variable {e after : List Char} {c : Char}

/-- The characters of words take one byte each. -/
theorem utf8Size_of_isWordChar (h : isWordChar c = true) : c.utf8Size = 1 := by
  have hascii : c.val ≤ 127 := by
    simp only [isWordChar, Char.isAlphanum, Char.isAlpha, Char.isUpper, Char.isLower, Char.isDigit,
      Bool.or_eq_true, Bool.and_eq_true, decide_eq_true_eq, beq_iff_eq] at h
    rcases h with ((((h | h) | h) | rfl) | rfl)
    · exact UInt32.le_trans h.2 (by decide)
    · exact UInt32.le_trans h.2 (by decide)
    · exact UInt32.le_trans h.2 (by decide)
    · decide
    · decide
  exact Char.utf8Size_eq_one_iff.2 hascii

theorem any_eq_false_iff {p : Char → Bool} {o : Option Char} :
    o.any p = false ↔ ∀ c ∈ o, p c = false := by
  cases o <;> simp

/-- The spacing behind an expression is judged by a word that starts inside a character where the
expression is severed from what follows, and nowhere else. -/
theorem joint_eq_torn_iff : joint e.reverse after = .torn ↔ Severed e after := by
  have hsplit := List.takeWhile_append_dropWhile (p := isWordChar) (l := e.reverse)
  unfold joint
  rw [List.head?_reverse]
  dsimp only
  constructor
  · intro h
    split at h
    · contradiction
    · rename_i hoperator
      rw [Bool.not_eq_true, Bool.or_eq_false_iff, any_eq_false_iff, any_eq_false_iff] at hoperator
      split at h
      · rename_i hsize
        cases hword : e.reverse.dropWhile isWordChar with
        | nil =>
          rw [hword] at hsize
          contradiction
        | cons c rest =>
          rw [hword] at hsize hsplit
          have hne : c.utf8Size ≠ 1 := by simpa using hsize
          refine ⟨hoperator.1, hoperator.2, rest.reverse, c,
            (e.reverse.takeWhile isWordChar).reverse, ?_, ?_, ?_⟩
          · simpa using (congrArg List.reverse hsplit).symm
          · have := c.utf8Size_pos
            omega
          · intro x hx
            exact List.mem_takeWhile_imp (List.mem_reverse.1 hx)
      · split at h <;> contradiction
  · rintro ⟨hbefore, hbehind, front, c, word, rfl, hsize, hword⟩
    have hc : ¬isWordChar c = true := by
      intro hc
      rw [utf8Size_of_isWordChar hc] at hsize
      exact Nat.lt_irrefl _ hsize
    have hdrop : (front ++ c :: word).reverse.dropWhile isWordChar = c :: front.reverse := by
      rw [List.reverse_append, List.reverse_cons, List.append_assoc,
        List.dropWhile_append_of_pos fun x hx ↦ hword x (List.mem_reverse.1 hx)]
      exact List.dropWhile_cons_of_neg hc
    rw [any_eq_false_iff.2 hbefore, any_eq_false_iff.2 hbehind, hdrop]
    simp [Nat.ne_of_gt hsize]

/-- No word goes on with spacing. -/
theorem detached_of_isSpacing (h : isSpacing c = true) (rest : List Char) :
    Detached (c :: rest) := by
  rintro _ ⟨⟩
  rw [isSpacing, Bool.or_eq_true, beq_iff_eq, beq_iff_eq] at h
  rcases h with rfl | rfl <;> decide

end

namespace Scan

variable {s : Scan} {c : Char} {rest e : List Char}

/-- What is set aside outside brackets stands at a joint. -/
def Joined (s : Scan) (rest : List Char) : Prop :=
  s.gap ≠ [] → ¬s.Open → s.kept ≠ [] → joint s.kept rest = .joined

/-- A scan is torn only at spacing that may end the value of an attribute. -/
theorem of_tear (h : s.read mode c rest = .tear) : mode = .attributeValue ∧ isSpacing c = true ∧
    s.quote = none ∧ s.outside = true ∧ s.kept ≠ [] ∧ joint s.kept rest = .torn := by
  unfold read readQuoted readBreak readSpacing readCloser readOutside at h
  repeat' split at h
  all_goals try contradiction
  rename_i hquote _ hsp hmay _ htorn
  rw [Bool.and_eq_true, Bool.and_eq_true, beq_iff_eq, Bool.not_eq_true',
    List.isEmpty_eq_false_iff] at hmay
  exact ⟨hmay.1.2, hsp, hquote, hmay.1.1, hmay.2, htorn⟩

/-- No other expression than the value of an attribute is torn. -/
theorem mode_of_run_torn (h : run mode s rest = .torn) : mode = .attributeValue := by
  induction rest generalizing s with
  | nil =>
    unfold run result at h
    repeat' split at h
    all_goals contradiction
  | cons c rest ih =>
    unfold run result at h
    split at h
    · exact ih h
    · split at h
      · exact ih h
      · split at h <;> contradiction
      · contradiction
      · exact (of_tear ‹_›).1

/-- Spacing is set aside where something joins what stands on its sides. -/
theorem joined_of_read {t : Scan} (h : s.read .attributeValue c rest = .next t) :
    t.Joined rest := by
  intro hgap hopen hkept
  rcases kept_of_read h with hkeep | ⟨rfl, hsp | ⟨-, hout⟩⟩
  · have hpassed := passed_of_read h
    rw [passed, hkeep] at hpassed
    exact absurd (List.append_left_eq_self.1 hpassed) hgap
  · have hclosed : s.quote = none ∧ s.outside = true := by
      simpa [Open, setAside, outside] using hopen
    have hkept : s.kept ≠ [] := hkept
    rw [read_of_spacing hclosed.1 hsp, readSpacing, if_pos (by simp [hclosed.2, hkept])] at h
    split at h
    · assumption
    · contradiction
    · contradiction
  · exact absurd (.inr hout) hopen

/-- A torn scan has read the value of an attribute, and comes to spacing behind it. -/
theorem exists_of_run_torn (hj : s.Joined rest) (h : run .attributeValue s rest = .torn) :
    ∃ w c after, rest = w ++ c :: after ∧ isSpacing c = true ∧
      run .attributeValue s w = .upTo (s.passed.reverse ++ w) ∧
      joint (s.passed.reverse ++ w).reverse after = .torn := by
  induction rest generalizing s with
  | nil =>
    unfold run result at h
    repeat' split at h
    all_goals contradiction
  | cons c rest ih =>
    cases hn : s.unread with
    | succ n =>
      rw [run_unread hn] at h
      obtain ⟨w, x, after, rfl, hx, hw, htorn⟩ := ih (fun hgap ↦ absurd rfl hgap) h
      refine ⟨c :: w, x, after, rfl, hx, ?_, ?_⟩
      · rw [run_unread hn, hw]
        simp [passed, keep]
      · simpa [passed, keep] using htorn
    | zero =>
      rw [run, hn] at h
      dsimp only at h
      split at h
      · rename_i t ht
        obtain ⟨w, x, after, rfl, hx, hw, htorn⟩ := ih (joined_of_read ht) h
        have hpassed := passed_of_read ht
        have hread : s.read .attributeValue c w = .next t := by
          have halone : run .attributeValue t (w ++ []) = .upTo (t.passed.reverse ++ w) := by
            rw [List.append_nil, hw]
          rw [← read_of_found hn ht halone (detached_of_isSpacing hx after), ht]
        refine ⟨c :: w, x, after, rfl, hx, ?_, ?_⟩
        · rw [run_next hn hread, hw, hpassed]
          simp
        · simpa [hpassed] using htorn
      · unfold result at h
        split at h <;> contradiction
      · contradiction
      · rename_i htear
        obtain ⟨-, hc, hquote, hout, hkept, htorn⟩ := of_tear htear
        have hgap : s.gap = [] := by
          by_contra hgap
          have hjoined := hj hgap (by simp [Open, hquote, hout]) hkept
          rw [joint, List.dropWhile_cons_of_pos hc] at hjoined
          rw [joint, hjoined] at htorn
          contradiction
        have hpassed : s.passed = s.kept := by
          rw [passed, hgap]
          rfl
        refine ⟨[], c, rest, rfl, hc, ?_, ?_⟩
        · rw [hpassed, List.append_nil, run, if_neg (by simp [hquote, hout])]
          exact if_neg (by simpa using hkept)
        · rw [hpassed, List.append_nil, List.reverse_reverse]
          exact htorn

end Scan

end Extent

open Extent Scan

/-- A scan is torn exactly behind the value of an attribute that is severed from what follows. -/
theorem extent_eq_torn_iff {mode : Mode} {text : List Char} :
    extent mode text = .torn ↔ mode = .attributeValue ∧ ∃ e c after, text = e ++ c :: after ∧
      isSpacing c = true ∧ extent .attributeValue e = .upTo e ∧ Severed e after := by
  constructor
  · intro h
    obtain rfl := mode_of_run_torn h
    obtain ⟨e, c, after, rfl, hc, he, htorn⟩ := exists_of_run_torn (fun hgap ↦ absurd rfl hgap) h
    exact ⟨rfl, e, c, after, rfl, hc, he, joint_eq_torn_iff.1 htorn⟩
  · rintro ⟨rfl, e, c, after, rfl, hc, he, htorn⟩
    obtain ⟨t, ht, hrun⟩ := run_extent he
    have hread : t.read .attributeValue c after = .tear := by
      rw [read_of_spacing ht.quote hc, readSpacing, if_pos (by simp [ht.outside, ht.kept_ne_nil]),
        ht.kept, joint_eq_torn_iff.2 htorn]
    rw [hrun _ (detached_of_isSpacing hc after), run, ht.unread]
    dsimp only
    rw [hread]

/-- What a scan finds is a beginning of the text of at least one character. It is torn in no other
mode than that of an attribute's value, and there exactly at spacing that severs an expression from
what follows it. -/
theorem extent_stands (mode : Mode) (text : List Char) :
    (∀ n, (extent mode text).bytes? = some n →
      0 < n ∧ ∃ e rest, text = e ++ rest ∧ byteLength e = n) ∧
    (extent mode text = .torn ↔ mode = .attributeValue ∧ ∃ e c after, text = e ++ c :: after ∧
      isSpacing c = true ∧ extent .attributeValue e = .upTo e ∧ Severed e after) := by
  refine ⟨?_, extent_eq_torn_iff⟩
  intro n hn
  cases h : extent mode text with
  | upTo e =>
    rw [h] at hn
    obtain rfl := Option.some.inj hn
    obtain ⟨rest, hrest⟩ := exists_eq_append_of_extent h
    obtain ⟨-, -, -, -, -, -, -, hne⟩ := found_of_extent h
    exact ⟨Nat.pos_of_ne_zero (mt byteLength_eq_zero.1 hne), e, rest, hrest, rfl⟩
  | absent =>
    rw [h] at hn
    contradiction
  | torn =>
    rw [h] at hn
    contradiction

/-- The word `b` behind a letter of two bytes is not reached. -/
theorem extent_torn_letter : extent .attributeValue ['é', ' ', 'b'] = .torn := by
  decide

end Pug

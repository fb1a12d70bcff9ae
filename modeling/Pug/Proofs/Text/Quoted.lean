import Mathlib
import Pug.Text.Quoted
import Pug.Text.Blank

/-!
# Quoted texts are told apart

In a dump every character takes a form of its own, and no form is the beginning of another one. A
quote takes a backslash with it, so the quote alone ends the text. What is written for a text can
therefore be cut off from whatever stands behind it, and tells which text it is. It is one line:
a line break is never written as it is.
-/

namespace Pug.Text

variable {a b x y : List Char} {c d : Char} {n m : Nat}

/-- A row of characters of one sort ends where the first other one stands. -/
theorem append_inj_of_row {p : Char → Bool} (ha : ∀ c ∈ a, p c = true) (hb : ∀ c ∈ b, p c = true)
    (hx : ∀ c ∈ x.head?, p c = false) (hy : ∀ c ∈ y.head?, p c = false) (h : a ++ x = b ++ y) :
    a = b ∧ x = y := by
  have hcut {row behind : List Char} (hrow : ∀ c ∈ row, p c = true)
      (hbehind : ∀ c ∈ behind.head?, p c = false) : (row ++ behind).takeWhile p = row := by
    rw [List.takeWhile_append_of_pos hrow]
    cases behind with
    | nil => exact List.append_nil row
    | cons c rest => rw [List.takeWhile_cons_of_neg (by simp [hbehind c rfl]), List.append_nil]
  have hrow : a = b := by rw [← hcut ha hx, h, hcut hb hy]
  exact ⟨hrow, List.append_cancel_left (hrow ▸ h)⟩

/-! ## Hexadecimal numbers -/

theorem hexDigits_eq (n : Nat) : hexDigits n =
    if n < 16 then [n.digitChar] else hexDigits (n / 16) ++ [(n % 16).digitChar] :=
  Nat.toDigits_eq_if (by decide)

theorem hexDigits_ne_nil (n : Nat) : hexDigits n ≠ [] :=
  Nat.toDigits_ne_nil

theorem exists_of_mem_hexDigits (h : c ∈ hexDigits n) : ∃ k, c = Nat.digitChar k := by
  induction n using Nat.strong_induction_on with
  | _ n ih =>
    rw [hexDigits_eq] at h
    split at h
    case isTrue => exact ⟨n, List.mem_singleton.1 h⟩
    case isFalse hn =>
      obtain h | h := List.mem_append.1 h
      · exact ih (n / 16) (by omega) h
      · exact ⟨n % 16, List.mem_singleton.1 h⟩

theorem hexDigits_ne_brace (n : Nat) : ∀ c ∈ hexDigits n, (c != '\x7d') = true := by
  intro c hc
  obtain ⟨k, rfl⟩ := exists_of_mem_hexDigits hc
  exact bne_iff_ne.2 (Nat.digitChar_ne _ rfl)

theorem isBreak_of_mem_hexDigits (h : c ∈ hexDigits n) : isBreak c = false := by
  obtain ⟨k, rfl⟩ := exists_of_mem_hexDigits h
  have hfeed : k.digitChar ≠ '\n' := Nat.digitChar_ne _ rfl
  have hreturn : k.digitChar ≠ '\r' := Nat.digitChar_ne _ rfl
  simp [isBreak, hfeed, hreturn]

theorem digitChar_injective (hn : n < 16) (hm : m < 16) (h : n.digitChar = m.digitChar) :
    n = m := by
  have hall : ∀ n < 16, ∀ m < 16, n.digitChar = m.digitChar → n = m := by decide
  exact hall n hn m hm h

theorem hexDigits_injective (h : hexDigits n = hexDigits m) : n = m := by
  induction n using Nat.strong_induction_on generalizing m with
  | _ n ih =>
    have hsingle {k : Nat} {c d : Char} (h : [] ++ [c] = hexDigits k ++ [d]) : False :=
      hexDigits_ne_nil k (List.append_inj' h rfl).1.symm
    rw [hexDigits_eq n, hexDigits_eq m] at h
    split at h <;> split at h
    case isTrue.isTrue hn hm => exact digitChar_injective hn hm (List.singleton_inj.1 h)
    case isTrue.isFalse => exact (hsingle h).elim
    case isFalse.isTrue => exact (hsingle h.symm).elim
    case isFalse.isFalse hn hm =>
      obtain ⟨hhigh, hlow⟩ := List.append_inj' h rfl
      have hdiv : n / 16 = m / 16 := ih (n / 16) (by omega) hhigh
      have hmod : n % 16 = m % 16 :=
        digitChar_injective (by omega) (by omega) (List.singleton_inj.1 hlow)
      omega

/-! ## Characters -/

/-- The characters with a short form, and the letter that stands for each behind a backslash. -/
def shortForms : List (Char × Char) :=
  [('\x00', '0'), ('\t', 't'), ('\n', 'n'), ('\r', 'r'), ('"', '"'), ('\\', '\\')]

/-- How a character may be written in a dump. -/
inductive DumpForm (c : Char) : List Char → Prop
  | short {letter : Char} (h : (c, letter) ∈ shortForms) : DumpForm c ['\\', letter]
  | long : DumpForm c (['\\', 'u', '\x7b'] ++ hexDigits c.toNat ++ ['\x7d'])
  | plain (hslash : c ≠ '\\') (hquote : c ≠ '"') (hbreak : isBreak c = false) : DumpForm c [c]

theorem dumpForm (c : Char) : DumpForm c (dumpChar c) := by
  have hshort {d letter : Char} (h : c == d) (hmem : (d, letter) ∈ shortForms) :
      DumpForm c ['\\', letter] := .short (beq_iff_eq.1 h ▸ hmem)
  unfold dumpChar
  split_ifs with hnull htab hfeed hreturn hquote hslash hshown
  case pos => exact hshort hnull (by decide)
  case pos => exact hshort htab (by decide)
  case pos => exact hshort hfeed (by decide)
  case pos => exact hshort hreturn (by decide)
  case pos => exact hshort hquote (by decide)
  case pos => exact hshort hslash (by decide)
  case pos => exact .long
  case neg =>
    rw [beq_iff_eq] at hfeed hreturn hquote hslash
    exact .plain hslash hquote (by simp [isBreak, hfeed, hreturn])

/-- The letters of the short forms are told apart, and none of them begins a long form. -/
theorem shortForms_injective : ∀ p ∈ shortForms, p.2 ≠ 'u' ∧
    ∀ q ∈ shortForms, p.2 = q.2 → p.1 = q.1 := by
  decide

theorem DumpForm.append_injective (hf : DumpForm c a) (hg : DumpForm d b)
    (h : a ++ x = b ++ y) : c = d ∧ x = y := by
  cases hf with
  | short hletter =>
    cases hg with
    | short hother =>
      obtain ⟨heq, hrest⟩ := List.cons.inj (List.cons.inj h).2
      exact ⟨(shortForms_injective _ hletter).2 _ hother heq, hrest⟩
    | long => exact ((shortForms_injective _ hletter).1 (List.cons.inj (List.cons.inj h).2).1).elim
    | plain hslash => exact (hslash (List.cons.inj h).1.symm).elim
  | long =>
    cases hg with
    | short hother =>
      exact ((shortForms_injective _ hother).1 (List.cons.inj (List.cons.inj h).2).1.symm).elim
    | long =>
      obtain ⟨hdigits, hrest⟩ := append_inj_of_row (p := (· != '\x7d'))
        (hexDigits_ne_brace _) (hexDigits_ne_brace _) (x := '\x7d' :: x) (y := '\x7d' :: y)
        (by simp) (by simp) (by simpa using h)
      exact ⟨Char.toNat_inj.1 (hexDigits_injective hdigits), (List.cons.inj hrest).2⟩
    | plain hslash => exact (hslash (List.cons.inj h).1.symm).elim
  | plain hslash =>
    cases hg with
    | short => exact (hslash (List.cons.inj h).1).elim
    | long => exact (hslash (List.cons.inj h).1).elim
    | plain => exact List.cons.inj h

theorem DumpForm.not_isBreak (hf : DumpForm c a) (hd : d ∈ a) : isBreak d = false := by
  cases hf with
  | short hletter =>
    have hall : ∀ p ∈ shortForms, isBreak p.2 = false := by decide
    obtain rfl | rfl : d = '\\' ∨ d = _ := by simpa using hd
    · rfl
    · exact hall _ hletter
  | long =>
    rw [List.mem_append, List.mem_append] at hd
    obtain (hmark | hdigit) | hclose := hd
    · have hall : ∀ d ∈ ['\\', 'u', '\x7b'], isBreak d = false := by simp [isBreak]
      exact hall d hmark
    · exact isBreak_of_mem_hexDigits hdigit
    · rw [List.mem_singleton.1 hclose]
      rfl
  | plain _ _ hbreak => exact List.mem_singleton.1 hd ▸ hbreak

theorem DumpForm.exists_head (hf : DumpForm c a) : ∃ d rest, a = d :: rest ∧ d ≠ '"' := by
  cases hf with
  | short => exact ⟨_, _, rfl, by decide⟩
  | long => exact ⟨_, _, rfl, by decide⟩
  | plain _ hquote => exact ⟨_, _, rfl, hquote⟩

/-! ## Texts -/

variable {cs ds : List Char}

/-- The characters up to the closing quote tell the text. -/
theorem flatMap_dumpChar_append_injective
    (h : cs.flatMap dumpChar ++ '"' :: x = ds.flatMap dumpChar ++ '"' :: y) : cs = ds ∧ x = y := by
  have hquote {e : Char} {es z w : List Char}
      (h : '"' :: z = (e :: es).flatMap dumpChar ++ w) : False := by
    obtain ⟨first, rest, hform, hne⟩ := (dumpForm e).exists_head
    rw [List.flatMap_cons, hform] at h
    exact hne (List.cons.inj h).1.symm
  induction cs generalizing ds with
  | nil =>
    cases ds with
    | nil => exact ⟨rfl, (List.cons.inj h).2⟩
    | cons d ds => exact (hquote h).elim
  | cons c cs ih =>
    cases ds with
    | nil => exact (hquote h.symm).elim
    | cons d ds =>
      rw [List.flatMap_cons, List.flatMap_cons, List.append_assoc, List.append_assoc] at h
      obtain ⟨rfl, hrest⟩ := (dumpForm c).append_injective (dumpForm d) h
      obtain ⟨rfl, hbehind⟩ := ih hrest
      exact ⟨rfl, hbehind⟩

/-- A quoted text can be cut off from what stands behind it. -/
theorem dumpQuoted_append_injective (h : dumpQuoted cs ++ x = dumpQuoted ds ++ y) :
    cs = ds ∧ x = y := by
  refine flatMap_dumpChar_append_injective ?_
  simpa [dumpQuoted] using h

/-- A quoted text is on one line. -/
theorem dumpQuoted_unbroken (hc : c ∈ dumpQuoted cs) : isBreak c = false := by
  rw [dumpQuoted, List.mem_cons, List.mem_append, List.mem_singleton] at hc
  obtain rfl | hc | rfl := hc
  · rfl
  · obtain ⟨d, -, hd⟩ := List.mem_flatMap.1 hc
    exact (dumpForm d).not_isBreak hd
  · rfl

end Pug.Text

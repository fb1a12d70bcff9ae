import Pug.Proofs.Expression.Grammar

/-!
# Expressions end themselves

An expression that a scan finds is found again when the text behind it is cut off or begins a new
line: the scan looks past a character only for the word behind some spacing, for the character
behind a `?` and, in brackets, for the continuation of a line, and each of these lies in the
expression if the scan goes on.

The argument is a pair of scans in lockstep. `result_cases` says that a scan whose result is what it
has passed leaves nothing open, `detached_of_run` that what follows an expression goes on with
nothing in it, and `run_of_found` brings a scan to the end of the expression whatever stands there.
`Balanced` says that quotes are closed and brackets nested, in no mode in particular.
-/

namespace Pug

open Text

namespace Extent

/-- Neither a word nor a `?` goes on with what stands behind it. -/
def Detached (others : List Char) : Prop :=
  ∀ c ∈ others.head?, isWordChar c = false ∧ c ≠ '?' ∧ c ≠ '.'

section

variable {others : List Char}

theorem detached_nil : Detached [] := by
  rintro c ⟨⟩

theorem takeWhile_append_of_detached (h : Detached others) (cs : List Char) :
    (cs ++ others).takeWhile isWordChar = cs.takeWhile isWordChar := by
  induction cs with
  | nil =>
    cases others with
    | nil => rfl
    | cons c rest =>
      rw [List.nil_append, List.takeWhile_cons_of_neg (by rw [(h c rfl).1]; decide)]
      rfl
  | cons c cs ih => rw [List.cons_append, List.takeWhile_cons, List.takeWhile_cons, ih]

/-- What is behind some spacing is told by the word that starts there. -/
theorem joint_append_of_detached (h : Detached others) {cs : List Char}
    (hcs : cs.dropWhile isSpacing ≠ []) (before : List Char) :
    joint before (cs ++ others) = joint before cs := by
  have hnext : (cs ++ others).dropWhile isSpacing = cs.dropWhile isSpacing ++ others := by
    rw [List.dropWhile_append, if_neg (mt List.isEmpty_iff.1 hcs)]
  have hhead : (cs.dropWhile isSpacing ++ others).head? = (cs.dropWhile isSpacing).head? := by
    obtain ⟨x, xs, hx⟩ := List.exists_cons_of_ne_nil hcs
    rw [hx]
    rfl
  unfold joint
  simp only [hnext, hhead, takeWhile_append_of_detached h]

end

namespace Scan

variable {mode : Mode} {s t : Scan} {c : Char} {rest near more others text e : List Char}

theorem readOutside_append (h : Detached others) :
    s.readOutside mode c (rest ++ others) = s.readOutside mode c rest := by
  cases rest with
  | cons d rest => rfl
  | nil =>
    cases others with
    | nil => rfl
    | cons d others =>
      obtain ⟨-, hq, hd⟩ := h d rfl
      unfold readOutside
      split <;> simp [hq, hd]

/-- A scan that stops has not read what comes behind. -/
theorem result_ne (s : Scan) (c : Char) (rest : List Char) :
    s.result ≠ .upTo (s.passed.reverse ++ c :: rest) := by
  unfold result
  split
  · rintro ⟨⟩
  · intro h
    have hlength := congrArg List.length (Extent.upTo.inj h)
    simp [passed] at hlength

/-- Where a scan stands that has read a phrase: nothing is open, and no blank is set aside. -/
structure Done (text : List Char) (t : Scan) : Prop where
  kept : t.kept = text.reverse
  quote : t.quote = none
  closers : t.closers = []
  unread : t.unread = 0
  found : t.result = .upTo text

theorem Done.outside (h : Done text t) : t.outside = true := by
  rw [Scan.outside, h.closers]
  rfl

theorem Done.kept_ne_nil (h : Done text t) : t.kept ≠ [] := by
  intro hnil
  have hfound := h.found
  rw [result, hnil] at hfound
  contradiction

/-- Only where nothing is open does a character end the expression. -/
theorem read_ne_stop (ho : s.Open) : s.read mode c rest ≠ .stop := by
  cases hq : s.quote with
  | some quote =>
    unfold read
    rw [hq]
    dsimp only
    unfold readQuoted
    repeat' split
    all_goals
      intro h
      contradiction
  | none =>
    have hout : s.outside = false := ho.resolve_left (by rw [hq]; decide)
    have hclosers : s.closers ≠ [] := by
      intro h
      rw [outside, h] at hout
      contradiction
    unfold read readBreak readSpacing readCloser
    rw [hq, hout]
    repeat' split
    all_goals first | contradiction | skip
    all_goals
      intro h
      contradiction

/-- A scan that goes on either counts the character to the expression or sets it aside; then nothing
else changes. -/
theorem kept_of_read {t : Scan} (h : s.read mode c rest = .next t) :
    t.kept = c :: s.passed ∨
      t = s.setAside c ∧ (isSpacing c = true ∨ isBreak c = true ∧ s.outside = false) := by
  unfold read readQuoted readBreak readSpacing readCloser readOutside at h
  repeat' split at h
  all_goals first | contradiction | cases h
  all_goals first | exact .inl rfl | skip
  · rename_i hbreak hout _
    exact .inr ⟨rfl, .inr ⟨hbreak, by simpa using hout⟩⟩
  · exact .inr ⟨rfl, .inl ‹_›⟩
  · exact .inr ⟨rfl, .inl ‹_›⟩

/-- A scan finds what it has kept, and then nothing is open, or it finds more than it has passed. -/
theorem result_cases (h : run mode s rest = .upTo e) :
    (s.result = .upTo e ∧ ¬s.Open) ∨ ∃ c cs, e = s.passed.reverse ++ c :: cs := by
  induction rest generalizing s with
  | nil =>
    unfold run at h
    split at h
    · contradiction
    · rename_i hopen
      rw [Bool.or_eq_true, Bool.not_eq_true'] at hopen
      exact .inl ⟨h, hopen⟩
  | cons c rest ih =>
    -- Whatever keeps the character finds more than what was passed before.
    have hkeep : ∀ t : Scan, t.kept = c :: s.passed → run mode t rest = .upTo e →
        ∃ x xs, e = s.passed.reverse ++ x :: xs := by
      intro t ht hrun
      rcases ih hrun with ⟨hfound, -⟩ | ⟨x, xs, rfl⟩
      · rw [result, ht] at hfound
        cases hfound
        exact ⟨c, [], by simp⟩
      · exact ⟨c, t.gap.reverse ++ x :: xs, by simp [passed, ht]⟩
    cases hn : s.unread with
    | succ n =>
      rw [run_unread hn] at h
      exact .inr (hkeep _ rfl h)
    | zero =>
      rcases run_cases hn h with ⟨t, ht, hrun⟩ | ⟨hstop, hr⟩
      · rcases kept_of_read ht with hkept | ⟨rfl, -⟩
        · exact .inr (hkeep t hkept hrun)
        · rcases ih hrun with hfound | ⟨x, xs, rfl⟩
          · exact .inl hfound
          · exact .inr ⟨c, x :: xs, by simp⟩
      · exact .inl ⟨hr, fun ho ↦ read_ne_stop ho hstop⟩

/-- What a scan has passed is all of its result only if it is all kept. -/
theorem closed_of_run (h : run mode s rest = .upTo s.passed.reverse) :
    s.result = .upTo s.passed.reverse ∧ ¬s.Open ∧ s.gap = [] := by
  rcases result_cases h with ⟨hfound, hopen⟩ | ⟨c, cs, he⟩
  · refine ⟨hfound, hopen, ?_⟩
    rw [result] at hfound
    split at hfound
    · contradiction
    · have hkept := List.reverse_injective (Extent.upTo.inj hfound)
      rw [passed] at hkept
      exact List.self_eq_append_left.1 hkept
  · have hlength := congrArg List.length he
    simp at hlength

/-- An expression takes in what is kept. -/
theorem length_kept_le (h : run mode s rest = .upTo e) : s.kept.length ≤ e.length := by
  rcases result_cases h with ⟨hfound, -⟩ | ⟨c, cs, rfl⟩
  · rw [result] at hfound
    split at hfound
    · contradiction
    · cases hfound
      rw [List.length_reverse]
  · simp only [passed, List.length_append, List.length_reverse]
    omega

/-- The characters of words stand alone and end nothing. -/
theorem isSingle_of_isWordChar (mode : Mode) (hc : isWordChar c = true) :
    IsSingle c ∧ isSpacing c = false ∧ c ∉ separators mode ∧ c ≠ '?' := by
  have hno : ∀ x, isWordChar x = false → c ≠ x := by
    rintro x hx rfl
    rw [hc] at hx
    contradiction
  refine ⟨⟨?_, ?_, ?_, ?_⟩, ?_, ?_, hno '?' rfl⟩
  · simp [isBreak, hno '\n' rfl, hno '\r' rfl]
  · simp [isQuote, hno '"' rfl, hno '\'' rfl, hno '\x60' rfl]
  · simp [closer?, hno '(' rfl, hno '[' rfl, hno '\x7b' rfl]
  · simp [isCloser, hno ')' rfl, hno ']' rfl, hno '\x7d' rfl]
  · simp [isSpacing, hno ' ' rfl, hno '\t' rfl]
  · cases mode <;> simp [separators, hno ':' rfl, hno ',' rfl, hno ';' rfl]

/-- Words, question marks and dots belong to an expression that they stand behind. -/
theorem kept_of_word (mode : Mode) (rest : List Char) (hopen : ¬s.Open)
    (hc : isWordChar c = true ∨ c = '?' ∨ c = '.') :
    ∃ t, s.read mode c rest = .next t ∧ t.kept = c :: s.passed := by
  rw [Open, not_or, Bool.not_eq_false] at hopen
  obtain ⟨hquote, hout⟩ := hopen
  have hquote : s.quote = none := by simpa using hquote
  have hplain : ∀ x, IsSingle x → isSpacing x = false → x ∉ separators mode → x ≠ '?' →
      ∃ t, s.read mode x rest = .next t ∧ t.kept = x :: s.passed := by
    intro x hx hsp hsep hquestion
    rw [read_of_single hquote hx hsp, if_pos hout, readOutside_of_plain hquestion hsep]
    exact ⟨_, rfl, rfl⟩
  rcases hc with hc | rfl | rfl
  · obtain ⟨hx, hsp, hsep, hquestion⟩ := isSingle_of_isWordChar mode hc
    exact hplain c hx hsp hsep hquestion
  · rw [read_of_single hquote ⟨rfl, rfl, rfl, rfl⟩ rfl, if_pos hout, readOutside_question]
    split <;> exact ⟨_, rfl, rfl⟩
  · refine hplain '.' ⟨rfl, rfl, rfl, rfl⟩ rfl ?_ (by decide)
    cases mode <;> simp [separators]

/-- What stands behind an expression goes on with nothing in it. -/
theorem detached_of_run (h : run mode s (rest ++ others) = .upTo (s.passed.reverse ++ rest)) :
    Detached others := by
  induction rest generalizing s with
  | nil =>
    rw [List.nil_append, List.append_nil] at h
    cases others with
    | nil => exact detached_nil
    | cons c others =>
      rintro _ ⟨⟩
      -- Whatever keeps the character finds more than what was passed before it.
      have hkeep : ∀ t : Scan, t.kept = c :: s.passed →
          run mode t others ≠ .upTo s.passed.reverse := by
        intro t ht hrun
        have hlength := length_kept_le hrun
        rw [ht, List.length_reverse] at hlength
        exact Nat.not_succ_le_self _ hlength
      have hword : ¬(isWordChar c = true ∨ c = '?' ∨ c = '.') := by
        intro hc
        cases hn : s.unread with
        | succ n =>
          rw [run_unread hn] at h
          exact hkeep _ rfl h
        | zero =>
          obtain ⟨t, ht, hkept⟩ := kept_of_word mode others (closed_of_run h).2.1 hc
          rw [run_next hn ht] at h
          exact hkeep t hkept h
      simpa using hword
  | cons c rest ih =>
    have hnext : ∀ t : Scan, t.passed = c :: s.passed →
        run mode t (rest ++ others) = .upTo (s.passed.reverse ++ c :: rest) → Detached others := by
      intro t ht hrun
      refine ih (s := t) ?_
      rw [hrun, ht, List.reverse_cons, List.append_assoc]
      rfl
    rw [List.cons_append] at h
    cases hn : s.unread with
    | succ n =>
      rw [run_unread hn] at h
      exact hnext _ rfl h
    | zero =>
      rcases run_cases hn h with ⟨t, ht, hrun⟩ | ⟨-, hr⟩
      · exact hnext t (passed_of_read ht) hrun
      · exact absurd hr (result_ne s c rest)

/-- Spacing does not end an expression. -/
theorem run_spacing_ne (hquote : s.quote = none) (hn : s.unread = 0) (hgap : s.gap ≠ [])
    (hrest : ∀ x ∈ rest, isSpacing x = true) :
    run mode s (rest ++ others) ≠ .upTo (s.passed.reverse ++ rest) := by
  induction rest generalizing s with
  | nil =>
    intro h
    rw [List.append_nil] at h
    exact hgap (closed_of_run h).2.2
  | cons c rest ih =>
    rw [List.forall_mem_cons] at hrest
    intro h
    rcases run_cases hn h with ⟨t, ht, hrun⟩ | ⟨-, hr⟩
    · rw [read_of_spacing hquote hrest.1] at ht
      obtain rfl := eq_of_readSpacing ht
      refine ih (s := s.setAside c) hquote hn (List.cons_ne_nil c s.gap) hrest.2 (hrun.trans ?_)
      simp
    · exact absurd hr (result_ne s c rest)

/-- The characters that a scan takes unread in brackets lie in the expression. -/
theorem unread_le (ho : s.Open)
    (h : run mode s (rest ++ others) = .upTo (s.passed.reverse ++ rest)) :
    s.unread ≤ rest.length := by
  induction rest generalizing s with
  | nil =>
    rw [List.append_nil] at h
    exact absurd ho (closed_of_run h).2.1
  | cons c rest ih =>
    cases hn : s.unread with
    | zero => exact Nat.zero_le _
    | succ n =>
      rw [List.cons_append, run_unread hn] at h
      refine Nat.succ_le_succ (ih (s := { s.keep c with unread := n }) (ho.of_eq rfl rfl) ?_)
      rw [h]
      simp [passed, keep]

/-- What a scan does on a character outside strings does not depend on what stands behind a text
that goes on with more than spacing, and with the whole continuation of a line. -/
theorem read_append_of_front (hquote : s.quote = none) (h : Detached others)
    (hsp : isSpacing c = true → rest.dropWhile isSpacing ≠ [])
    (hbreak : isBreak c = true → s.outside = true ∨
      ∀ lineBreak, mode = .statement lineBreak → lineBreak.length ≤ rest.length + 1) :
    s.read mode c (rest ++ others) = s.read mode c rest := by
  rcases kinds c with hc | hc | ⟨d, hc⟩ | hc | hc
  · rw [read_of_break hquote hc, read_of_break hquote hc]
    rcases hbreak hc with hout | hlong
    · unfold readBreak
      rw [if_pos hout, if_pos hout]
    · exact readBreak_append hlong
  · rw [read_of_quote hquote hc, read_of_quote hquote hc]
  · rw [read_of_opener hquote hc, read_of_opener hquote hc]
  · rw [read_of_closer hquote hc, read_of_closer hquote hc]
  · by_cases hspc : isSpacing c = true
    · rw [read_of_spacing hquote hspc, read_of_spacing hquote hspc, readSpacing, readSpacing,
        joint_append_of_detached h (hsp hspc)]
    · rw [Bool.not_eq_true] at hspc
      rw [read_of_single hquote hc hspc, read_of_single hquote hc hspc, readOutside_append h]

/-- What a scan does on a character of an expression does not depend on what stands behind the
expression. -/
theorem read_of_found {t : Scan} (hn : s.unread = 0) (ht : s.read mode c (rest ++ near) = .next t)
    (hr : run mode t (rest ++ more) = .upTo (t.passed.reverse ++ rest)) (h : Detached others) :
    s.read mode c (rest ++ others) = s.read mode c rest := by
  cases hquote : s.quote with
  | some quote =>
    unfold read
    rw [hquote]
  | none =>
    refine read_append_of_front hquote h ?_ ?_
    · intro hsp hnil
      rw [read_of_spacing hquote hsp] at ht
      obtain rfl := eq_of_readSpacing ht
      exact run_spacing_ne (s := s.setAside c) hquote hn (List.cons_ne_nil c s.gap)
        (List.dropWhile_eq_nil_iff.1 hnil) hr
    · intro hc
      rw [or_iff_not_imp_left]
      rintro hout lineBreak rfl
      rw [read_of_break hquote hc] at ht
      have hle := unread_le (open_of_readBreak ht) hr
      rw [readBreak, if_neg hout] at ht
      dsimp only at ht
      split at ht
      · cases ht
        exact Nat.le_add_of_sub_le hle
      · contradiction

/-- A scan that finds an expression comes to its end, whatever stands behind it. -/
theorem run_of_found (hs : s.Reaches rest)
    (h : run mode s (rest ++ more) = .upTo (s.passed.reverse ++ rest)) :
    ∃ t, Done (s.passed.reverse ++ rest) t ∧
      ∀ others, Detached others → run mode s (rest ++ others) = run mode t others := by
  have hmore := detached_of_run h
  induction rest generalizing s with
  | nil =>
    rw [List.append_nil] at h ⊢
    obtain ⟨hfound, hopen, hgap⟩ := closed_of_run h
    have hunread : s.unread = 0 := Nat.le_zero.1 (hs.resolve_right hopen)
    rw [Open, not_or, Bool.not_eq_false] at hopen
    refine ⟨s, ⟨?_, by simpa using hopen.1, List.isEmpty_iff.1 hopen.2, hunread, hfound⟩,
      fun _ _ ↦ rfl⟩
    rw [List.reverse_reverse, passed, hgap]
    rfl
  | cons c rest ih =>
    -- Whatever passes the character goes on with what is behind it.
    have hnext : ∀ t : Scan, t.passed = c :: s.passed → t.Reaches rest →
        run mode t (rest ++ more) = .upTo (s.passed.reverse ++ c :: rest) →
        ∃ u, Done (s.passed.reverse ++ c :: rest) u ∧
          ∀ others, Detached others → run mode t (rest ++ others) = run mode u others := by
      intro t ht hreach hrun
      have hpassed : s.passed.reverse ++ c :: rest = t.passed.reverse ++ rest := by
        rw [ht, List.reverse_cons, List.append_assoc]
        rfl
      rw [hpassed] at hrun ⊢
      exact ih hreach hrun
    simp only [List.cons_append] at h ⊢
    cases hn : s.unread with
    | succ n =>
      rw [run_unread hn] at h
      simp only [run_unread hn]
      refine hnext _ rfl ?_ h
      rcases hs with hs | hs
      · rw [hn, List.length_cons] at hs
        exact .inl (Nat.le_of_succ_le_succ hs)
      · exact .inr (hs.of_eq rfl rfl)
    | zero =>
      rcases run_cases hn h with ⟨t, ht, hrun⟩ | ⟨-, hr⟩
      · have hpassed := passed_of_read ht
        have hread : ∀ others, Detached others → s.read mode c (rest ++ others) = .next t := by
          intro others hothers
          have hfound : run mode t (rest ++ more) = .upTo (t.passed.reverse ++ rest) := by
            rw [hrun, hpassed, List.reverse_cons, List.append_assoc]
            rfl
          rw [read_of_found hn ht hfound hothers, ← read_of_found hn ht hfound hmore, ht]
        have halone := hread [] detached_nil
        rw [List.append_nil] at halone
        obtain ⟨u, hu, hend⟩ := hnext t hpassed (reaches_read hn halone) hrun
        refine ⟨u, hu, fun others hothers ↦ ?_⟩
        rw [run_next hn (hread others hothers), hend others hothers]
      · exact absurd hr (result_ne s c rest)

end Scan

/-- Every quote outside strings opens a string that is closed, and the brackets outside strings are
nested. -/
inductive Balanced : List Char → Prop
  | nil : Balanced []
  | literal {q : Char} {l cs : List Char} (hq : isQuote q = true) (hl : Literal q l)
      (rest : Balanced cs) : Balanced (q :: (l ++ cs))
  | group {o d : Char} {g cs : List Char} (ho : closer? o = some d) (hg : Balanced g)
      (rest : Balanced cs) : Balanced (o :: (g ++ d :: cs))
  | char {c : Char} {cs : List Char} (hq : isQuote c = false) (ho : closer? c = none)
      (hc : isCloser c = false) (rest : Balanced cs) : Balanced (c :: cs)

/-- The continuation of a line is a line break and the indentation behind it. -/
def ContinuesBlank (mode : Mode) : Prop :=
  ∀ lineBreak, mode = .statement lineBreak → ∀ c ∈ lineBreak, isSeparator c = true

section

variable {mode : Mode} {n k : Nat} {b g w cs : List Char}

theorem Balanced.separators (h : ∀ c ∈ b, isSeparator c = true) (rest : Balanced cs) :
    Balanced (b ++ cs) := by
  induction b with
  | nil => exact rest
  | cons c b ih =>
    rw [List.forall_mem_cons] at h
    have hc : c = ' ' ∨ c = '\t' ∨ c = '\n' ∨ c = '\r' := by
      simpa [isSeparator, isSpacing, isBreak, or_assoc] using h.1
    rcases hc with rfl | rfl | rfl | rfl <;> exact .char rfl rfl rfl (ih h.2)

theorem Continues.separators (hmode : ContinuesBlank mode) (h : Continues mode b) :
    ∀ c ∈ b, isSeparator c = true := by
  cases mode with
  | inline => exact h.elim
  | attributeValue =>
    obtain ⟨c, rfl, hc⟩ := h
    simp [isSeparator, hc]
  | statement lineBreak =>
    obtain ⟨rfl, -⟩ := h
    exact hmode b rfl

theorem Inside.balanced (hmode : ContinuesBlank mode) (h : Inside mode g) : Balanced g := by
  induction h with
  | nil => exact .nil
  | literal hq hl _ ih => exact .literal hq hl ih
  | group ho _ _ ihg ih => exact .group ho ihg ih
  | char hc _ ih => exact .char hc.unquoted hc.opens hc.closes ih
  | lineBreak hb _ ih => exact .separators (hb.separators hmode) ih

theorem Items.balanced (hmode : ContinuesBlank mode) (h : Items mode n w k) : Balanced w := by
  induction h with
  | nil => exact .nil
  | literal hq hl _ ih => exact .literal hq hl ih
  | group ho hg _ ih => exact .group ho (hg.balanced hmode) ih
  | pair _ ih => exact .char rfl rfl rfl (.char rfl rfl rfl ih)
  | optional _ _ ih => exact .char rfl rfl rfl ih
  | condition _ _ ih => exact .char rfl rfl rfl ih
  | colon _ _ ih => exact .char rfl rfl rfl ih
  | char hc _ _ _ ih => exact .char hc.unquoted hc.opens hc.closes ih

/-- A row of items does not end in a line break. -/
theorem Items.unbroken (h : Items mode n w k) : ∀ c ∈ w.getLast?, isBreak c = false := by
  have hlast : ∀ (v cs : List Char) (x : Char), isBreak x = false →
      (∀ c ∈ cs.getLast?, isBreak c = false) →
      ∀ c ∈ (v ++ x :: cs).getLast?, isBreak c = false := by
    intro v cs x hx hcs c hc
    rw [List.getLast?_append_of_ne_nil _ (List.cons_ne_nil x cs), List.getLast?_cons] at hc
    obtain rfl := Option.some.inj hc
    cases hcs' : cs.getLast? with
    | none => exact hx
    | some y => exact hcs y hcs'
  induction h with
  | nil =>
    intro c hc
    contradiction
  | @literal _ _ q l w hq hl _ ih =>
    obtain ⟨cs, rfl⟩ := hl.exists_concat
    have hassoc : q :: (cs ++ [q] ++ w) = q :: cs ++ q :: w := by simp
    rw [hassoc]
    exact hlast _ w q (Scan.unbroken_of_isQuote hq).1 ih
  | @group _ _ o d g w ho _ _ ih =>
    exact hlast (o :: g) w d (Scan.unbroken_of_isCloser (Scan.isCloser_of_closer ho)) ih
  | @pair _ _ w _ ih => exact hlast ['?'] w '?' rfl ih
  | @optional _ _ w _ _ ih => exact hlast [] w '?' rfl ih
  | @condition _ _ w _ _ ih => exact hlast [] w '?' rfl ih
  | @colon _ _ w _ _ ih => exact hlast [] w ':' rfl ih
  | @char _ _ c w hc _ _ _ ih => exact hlast [] w c hc.unbroken ih

end

end Extent

open Extent Scan

section

variable {mode : Mode} {text e others : List Char}

/-- A scan comes to the end of an expression, whatever stands behind it. -/
theorem run_extent (h : extent mode text = .upTo e) :
    ∃ t, Done e t ∧ ∀ others, Detached others → extent mode (e ++ others) = run mode t others := by
  obtain ⟨more, rfl⟩ := exists_eq_append_of_extent h
  exact run_of_found (s := init) (.inl (Nat.zero_le _)) h

theorem Text.FollowsLine.detached (h : FollowsLine others) : Detached others := by
  intro c hc
  rcases h.cases with rfl | ⟨rest, rfl | rfl⟩
  · contradiction
  · obtain rfl := Option.some.inj hc
    decide
  · obtain rfl := Option.some.inj hc
    decide

/-- An expression is found again before a new line. -/
theorem extent_append_of_followsLine (h : extent mode text = .upTo e)
    (hothers : FollowsLine others) : extent mode (e ++ others) = .upTo e := by
  obtain ⟨t, ht, hrun⟩ := run_extent h
  rw [hrun others hothers.detached, run_of_followsLine hothers ht.quote ht.outside ht.unread]
  exact ht.found

/-- An expression is a row of items as a whole, and does not end in spacing. -/
theorem exists_items_of_extent (h : extent mode text = .upTo e) :
    (∃ k, Items mode 0 e k) ∧ e.rdropWhile isSpacing = e := by
  have halone : extent mode (e ++ []) = .upTo e := extent_append_of_followsLine h rfl
  rw [List.append_nil] at halone
  obtain ⟨w, others, k, hw, hitems, -, he, -⟩ := found_of_extent halone
  rw [List.append_nil] at he
  replace he : e = w.rdropWhile isSpacing := List.reverse_eq_iff.1 he
  have hprefix : w <+: w.rdropWhile isSpacing := ⟨others, by rw [← he, ← hw]⟩
  have hwhole : w.rdropWhile isSpacing = w :=
    (List.rdropWhile_prefix isSpacing w).eq_of_length_le hprefix.length_le
  rw [hwhole] at he
  rw [he]
  exact ⟨⟨k, hitems⟩, hwhole⟩

/-- Expressions end themselves: nothing is open at their end, they do not end in spacing or a line
break, and before a new line or the end of the text they are found again. -/
theorem extent_delimited (hmode : ContinuesBlank mode) (h : extent mode text = .upTo e) :
    (∀ c ∈ e.getLast?, isSeparator c = false) ∧ Balanced e ∧
      ∀ others, FollowsLine others → extent mode (e ++ others) = .upTo e := by
  obtain ⟨⟨k, hitems⟩, hspacing⟩ := exists_items_of_extent h
  refine ⟨?_, hitems.balanced hmode, fun others ↦ extent_append_of_followsLine h⟩
  intro c hc
  rw [isSeparator, hitems.unbroken c hc, Bool.or_false, Bool.eq_false_iff]
  obtain ⟨hne, rfl⟩ := List.mem_getLast?_eq_getLast hc
  exact List.rdropWhile_eq_self_iff.1 hspacing hne

/-- A call whose argument stands on a line of its own, before another statement. -/
theorem extent_delimited_call : Balanced ['f', '(', '\n', '\t', 'x', ')'] ∧
    ∀ others, FollowsLine others → extent (.statement ['\n', '\t'])
      (['f', '(', '\n', '\t', 'x', ')'] ++ others) = .upTo ['f', '(', '\n', '\t', 'x', ')'] := by
  have hmode : ContinuesBlank (.statement ['\n', '\t']) := by
    rintro _ ⟨⟩
    simp [isSeparator, isSpacing, isBreak]
  have hfound : extent (.statement ['\n', '\t'])
      ['f', '(', '\n', '\t', 'x', ')', ' ', ';', 'y'] = .upTo ['f', '(', '\n', '\t', 'x', ')'] := by
    decide
  exact (extent_delimited hmode hfound).2

end

end Pug

import Pug.Proofs.Text.LineAhead

/-!
# The grammar of an extent

The scan that finds the extent of an expression keeps a stack of brackets, an open quote and a
counter. This file gives the grammar that it decides, by recursion on the text and without any of
these.

An *item* is a string, a group in brackets, or a single character that is neither a bracket nor a
quote nor a line break. `Literal` says what stands behind an opening quote, `Inside` what stands in
brackets, and `Items` what stands outside them: a row of items none of which ends the expression. A
`:` ends an expression unless it belongs to a conditional, so `Items` counts the conditionals that
miss their `:` before the row and behind it.

The main statement is `extent_eq_upTo_iff`: an inline expression or a statement is found exactly
where such a row stands before the end of the text or a character that ends the expression, and it
is that row without the spacing at its end.
-/

namespace Pug

open Text

namespace Extent

/-- What stands behind an opening quote: characters, of which a backslash hides the next, up to the
first quote that is not hidden. Only a backtick lets line breaks pass that are not hidden. -/
inductive Literal (quote : Char) : List Char → Prop
  | close : Literal quote [quote]
  | hidden {c : Char} {cs : List Char} (rest : Literal quote cs) : Literal quote ('\\' :: c :: cs)
  | char {c : Char} {cs : List Char} (hslash : c ≠ '\\') (hquote : c ≠ quote)
      (hbreak : isBreak c = true → quote = '\x60') (rest : Literal quote cs) :
      Literal quote (c :: cs)

/-- A string ends with the quote that closes it. -/
theorem Literal.exists_concat {q : Char} {l : List Char} (h : Literal q l) :
    ∃ cs, l = cs ++ [q] := by
  induction h with
  | close => exact ⟨[], rfl⟩
  | @hidden c _ _ ih =>
    obtain ⟨cs, rfl⟩ := ih
    exact ⟨'\\' :: c :: cs, rfl⟩
  | @char c _ _ _ _ _ ih =>
    obtain ⟨cs, rfl⟩ := ih
    exact ⟨c :: cs, rfl⟩

/-- An item of one character: no bracket, no quote and no line break. -/
structure IsSingle (c : Char) : Prop where
  unbroken : isBreak c = false
  unquoted : isQuote c = false
  opens : closer? c = none
  closes : isCloser c = false

/-- What brackets let pass at a line break: nothing in an inline expression, the break itself in the
value of an attribute, and in a statement the continuation of the line, which the break starts. -/
def Continues : Mode → List Char → Prop
  | .inline, _ => False
  | .attributeValue, b => ∃ c, b = [c] ∧ isBreak c = true
  | .statement lineBreak, b => b = lineBreak ∧ ∃ c cs, b = c :: cs ∧ isBreak c = true

/-- What stands in brackets: items, and the line breaks that the mode lets pass. -/
inductive Inside (mode : Mode) : List Char → Prop
  | nil : Inside mode []
  | literal {q : Char} {l cs : List Char} (hq : isQuote q = true) (hl : Literal q l)
      (rest : Inside mode cs) : Inside mode (q :: (l ++ cs))
  | group {o d : Char} {g cs : List Char} (ho : closer? o = some d) (hg : Inside mode g)
      (rest : Inside mode cs) : Inside mode (o :: (g ++ d :: cs))
  | char {c : Char} {cs : List Char} (hc : IsSingle c) (rest : Inside mode cs) :
      Inside mode (c :: cs)
  | lineBreak {b cs : List Char} (hb : Continues mode b) (rest : Inside mode cs) :
      Inside mode (b ++ cs)

/-- The characters that end an expression outside brackets, a `:` only where it belongs to no
conditional. -/
def separators : Mode → List Char
  | .inline => [':']
  | .attributeValue => [',', ':']
  | .statement _ => [';']

/-- A row of items outside brackets, none of which ends the expression. Before it `n` conditionals
miss their `:`, and behind it `k`. Two question marks in a row are a pair and start no conditional,
nor does a question mark before a dot. -/
inductive Items (mode : Mode) : Nat → List Char → Nat → Prop
  | nil {n : Nat} : Items mode n [] n
  | literal {n k : Nat} {q : Char} {l w : List Char} (hq : isQuote q = true) (hl : Literal q l)
      (rest : Items mode n w k) : Items mode n (q :: (l ++ w)) k
  | group {n k : Nat} {o d : Char} {g w : List Char} (ho : closer? o = some d)
      (hg : Inside mode g) (rest : Items mode n w k) : Items mode n (o :: (g ++ d :: w)) k
  | pair {n k : Nat} {w : List Char} (rest : Items mode n w k) : Items mode n ('?' :: '?' :: w) k
  | optional {n k : Nat} {w : List Char} (hdot : w.head? = some '.') (rest : Items mode n w k) :
      Items mode n ('?' :: w) k
  | condition {n k : Nat} {w : List Char} (hw : w.head? ≠ some '?' ∧ w.head? ≠ some '.')
      (rest : Items mode (n + 1) w k) : Items mode n ('?' :: w) k
  | colon {n k : Nat} {w : List Char} (hmode : ':' ∈ separators mode) (rest : Items mode n w k) :
      Items mode (n + 1) (':' :: w) k
  | char {n k : Nat} {c : Char} {w : List Char} (hc : IsSingle c) (hquestion : c ≠ '?')
      (hsep : c ∉ separators mode) (rest : Items mode n w k) : Items mode n (c :: w) k

/-- With `k` conditionals that miss their `:`, the text is at its end or starts with what ends the
expression. Spacing may end the value of an attribute as well. -/
def Stops (mode : Mode) (k : Nat) : List Char → Prop
  | [] => True
  | c :: _ => isBreak c = true ∨ isCloser c = true ∨ (c ∈ separators mode ∧ (c = ':' → k = 0)) ∨
      mode = .attributeValue ∧ isSpacing c = true

/-- No question mark looks for what ends an expression. -/
theorem Stops.head?_ne {mode : Mode} {k : Nat} {t : List Char} (h : Stops mode k t) :
    t.head? ≠ some '?' ∧ t.head? ≠ some '.' := by
  cases t with
  | nil =>
    constructor
    all_goals
      intro hc
      contradiction
  | cons c t =>
    constructor
    all_goals
      intro hc
      obtain rfl := Option.some.inj hc
      rcases h with h | h | ⟨h, -⟩ | ⟨-, h⟩
      · contradiction
      · contradiction
      · cases mode <;> simp [separators] at h
      · contradiction

/-- Before some others that end the expression, the text `t` holds a row of items; together with
what stands `before` it, backwards, they make up the expression `e`. -/
def Found (mode : Mode) (n : Nat) (before t e : List Char) : Prop :=
  ∃ w others k, t = w ++ others ∧ Items mode n w k ∧ Stops mode k others ∧
    e.reverse = (w.reverse ++ before).dropWhile isSpacing ∧ e ≠ []

/-- What stands before a row may be counted to it. -/
theorem Found.prepend {mode : Mode} {n m : Nat} {v before t e : List Char}
    (h : Found mode m (v.reverse ++ before) t e)
    (hv : ∀ w others k, t = w ++ others → Stops mode k others → Items mode m w k →
      Items mode n (v ++ w) k) : Found mode n before (v ++ t) e := by
  obtain ⟨w, others, k, rfl, hw, hstops, he, hne⟩ := h
  refine ⟨v ++ w, others, k, ?_, hv w others k rfl hstops hw, hstops, ?_, hne⟩
  · rw [List.append_assoc]
  · rw [he, List.reverse_append, List.append_assoc]

namespace Scan

variable {mode : Mode} {s : Scan} {c d q : Char} {n k : Nat}
variable {kept gap closers rest l g w t e : List Char}

theorem run_unread {n : Nat} (hn : s.unread = n + 1) :
    run mode s (c :: rest) = run mode { s.keep c with unread := n } rest := by
  rw [run, hn]

theorem run_next {t : Scan} (hn : s.unread = 0) (ht : s.read mode c rest = .next t) :
    run mode s (c :: rest) = run mode t rest := by
  rw [run, hn, ht]

/-! ### What is read, by the kind of the character -/

theorem read_of_spacing (hq : s.quote = none) (hc : isSpacing c = true) :
    s.read mode c rest = s.readSpacing mode c rest := by
  have hb : isBreak c = false :=
    Bool.eq_false_iff.2 fun hb ↦ by rw [isBreak_of_isSpacing hc] at hb; contradiction
  unfold read
  rw [hq]
  dsimp only
  rw [if_neg (by rw [hb]; decide), if_pos hc]

theorem read_of_quote (hq : s.quote = none) (hc : isQuote c = true) :
    s.read mode c rest = .next { s.keep c with quote := some c } := by
  have hcs : c = '"' ∨ c = '\'' ∨ c = '\x60' := by
    simpa [isQuote, or_assoc] using hc
  unfold read
  rw [hq]
  rcases hcs with rfl | rfl | rfl <;> rfl

theorem read_of_opener (hq : s.quote = none) (hc : closer? c = some d) :
    s.read mode c rest = .next { s.keep c with closers := d :: s.closers } := by
  have hcs : c = '(' ∨ c = '[' ∨ c = '\x7b' := by
    by_contra hno
    simp only [not_or] at hno
    simp [closer?, hno] at hc
  unfold read
  rw [hq]
  rcases hcs with rfl | rfl | rfl <;> cases hc <;> rfl

theorem read_of_closer (hq : s.quote = none) (hc : isCloser c = true) :
    s.read mode c rest = s.readCloser c := by
  have hcs : c = ')' ∨ c = ']' ∨ c = '\x7d' := by
    simpa [isCloser, or_assoc] using hc
  unfold read
  rw [hq]
  rcases hcs with rfl | rfl | rfl <;> rfl

theorem read_of_single (hq : s.quote = none) (hc : IsSingle c) (hsp : isSpacing c = false) :
    s.read mode c rest = if s.outside then s.readOutside mode c rest else .next (s.keep c) := by
  unfold read
  rw [hq]
  simp [hc.unbroken, hsp, hc.unquoted, hc.opens, hc.closes]

/-- Every character is of one of these kinds. -/
theorem kinds (c : Char) : isBreak c = true ∨ isQuote c = true ∨ (∃ d, closer? c = some d) ∨
    isCloser c = true ∨ IsSingle c := by
  by_contra hno
  simp only [not_or, Bool.not_eq_true, not_exists] at hno
  obtain ⟨hb, hq, ho, hcl, hs⟩ := hno
  exact hs ⟨hb, hq, Option.eq_none_iff_forall_ne_some.2 ho, hcl⟩

/-! ### Over strings and groups -/

/-- A scan outside strings that takes nothing unread. -/
abbrev clear (kept gap closers : List Char) (n : Nat) : Scan :=
  ⟨kept, gap, none, closers, n, 0⟩

/-- Wherever a scan comes to the text outside strings, it keeps the text as a whole. -/
def Passes (mode : Mode) (w : List Char) : Prop :=
  ∀ kept gap closers n rest, run mode (clear kept gap closers n) (w ++ rest) =
    run mode (clear (w.reverse ++ (gap ++ kept)) [] closers n) rest

/-- Characters that are taken unread are kept. -/
theorem run_take (rest kept : List Char) :
    run mode ⟨kept, [], none, closers, n, t.length⟩ (t ++ rest) =
      run mode (clear (t.reverse ++ kept) [] closers n) rest := by
  induction t generalizing kept with
  | nil => rfl
  | cons c t ih =>
    rw [List.cons_append, run_unread rfl, List.reverse_cons, List.append_assoc]
    exact ih (c :: kept)

theorem not_spacing_of_isQuote (hq : isQuote q = true) : isSpacing q = false := by
  refine Bool.eq_false_iff.2 fun hsp ↦ ?_
  simp only [isSpacing, Bool.or_eq_true, beq_iff_eq] at hsp
  rcases hsp with rfl | rfl <;> contradiction

theorem not_spacing_of_isCloser (hd : isCloser d = true) : isSpacing d = false := by
  refine Bool.eq_false_iff.2 fun hsp ↦ ?_
  simp only [isSpacing, Bool.or_eq_true, beq_iff_eq] at hsp
  rcases hsp with rfl | rfl <;> contradiction

theorem unbroken_of_isCloser (hd : isCloser d = true) : isBreak d = false := by
  refine Bool.eq_false_iff.2 fun hb ↦ ?_
  simp only [isBreak, Bool.or_eq_true, beq_iff_eq] at hb
  rcases hb with rfl | rfl <;> contradiction

theorem unbroken_of_isQuote (hq : isQuote q = true) : isBreak q = false ∧ q ≠ '\\' := by
  have hqs : q = '"' ∨ q = '\'' ∨ q = '\x60' := by
    simpa [isQuote, or_assoc] using hq
  rcases hqs with rfl | rfl | rfl <;> decide

/-- Behind an opening quote a scan comes to the end of the string. -/
theorem run_literal (hq : isQuote q = true) (h : Literal q l) (rest kept gap : List Char) :
    run mode ⟨kept, gap, some q, closers, n, 0⟩ (l ++ rest) =
      run mode (clear (l.reverse ++ (gap ++ kept)) [] closers n) rest := by
  obtain ⟨hbreak, hslash⟩ := unbroken_of_isQuote hq
  induction h generalizing kept gap with
  | close =>
    refine run_next rfl ?_
    simp [read, readQuoted, hslash, hbreak, keep]
  | @hidden c cs _ ih =>
    have hread : read ⟨kept, gap, some q, closers, n, 0⟩ mode '\\' (c :: (cs ++ rest)) =
        .next ⟨'\\' :: (gap ++ kept), [], some q, closers, n, 1⟩ := rfl
    rw [List.cons_append, List.cons_append, run_next rfl hread, run_unread rfl]
    refine (ih _ _).trans ?_
    simp [keep]
  | @char c cs hcs hquote hpass _ ih =>
    have hread : read ⟨kept, gap, some q, closers, n, 0⟩ mode c (cs ++ rest) =
        .next ⟨c :: (gap ++ kept), [], some q, closers, n, 0⟩ := by
      have hpass : (isBreak c && q != '\x60') = false := by
        rw [Bool.and_eq_false_imp, bne_eq_false_iff_eq]
        exact hpass
      simp [read, readQuoted, hcs, hquote, hpass, keep]
    rw [List.cons_append, run_next rfl hread, ih]
    simp

theorem run_quote (hq : isQuote q = true) (rest : List Char) :
    run mode (clear kept gap closers n) (q :: rest) =
      run mode ⟨q :: (gap ++ kept), [], some q, closers, n, 0⟩ rest :=
  run_next rfl (read_of_quote rfl hq)

/-- A scan passes a string. -/
theorem passes_literal (hq : isQuote q = true) (h : Literal q l) : Passes mode (q :: l) := by
  intro kept gap closers n rest
  rw [List.cons_append, run_quote hq, run_literal hq h]
  simp

theorem isCloser_of_closer (h : closer? c = some d) : isCloser d = true := by
  unfold closer? at h
  repeat' split at h
  all_goals cases h
  all_goals rfl

/-- A group is passed if what stands in it is. -/
theorem run_opener (ho : closer? c = some d) (rest : List Char) :
    run mode (clear kept gap closers n) (c :: rest) =
      run mode (clear (c :: (gap ++ kept)) [] (d :: closers) n) rest :=
  run_next rfl (read_of_opener rfl ho)

theorem run_closer (hd : isCloser d = true) (rest : List Char) :
    run mode (clear kept gap (d :: closers) n) (d :: rest) =
      run mode (clear (d :: (gap ++ kept)) [] closers n) rest := by
  refine run_next rfl ?_
  rw [read_of_closer rfl hd]
  simp [readCloser, keep]

/-- In brackets a scan sets spacing aside and keeps any other character. -/
theorem run_single (hc : IsSingle c) (rest : List Char) :
    run mode (clear kept gap (d :: closers) n) (c :: rest) =
      if isSpacing c = true then run mode (clear kept (c :: gap) (d :: closers) n) rest
      else run mode (clear (c :: (gap ++ kept)) [] (d :: closers) n) rest := by
  split
  · rename_i hsp
    refine run_next rfl ?_
    rw [read_of_spacing rfl hsp]
    rfl
  · rename_i hsp
    refine run_next rfl ?_
    rw [read_of_single rfl hc (Bool.eq_false_iff.2 hsp)]
    rfl

/-- In brackets a scan passes a line break that the mode lets pass. -/
theorem run_continues (hb : Continues mode t) (rest : List Char) :
    run mode (clear kept gap (d :: closers) n) (t ++ rest) =
      if mode = .attributeValue then run mode (clear kept (t ++ gap) (d :: closers) n) rest
      else run mode (clear (t.reverse ++ (gap ++ kept)) [] (d :: closers) n) rest := by
  cases mode with
  | inline => exact hb.elim
  | attributeValue =>
    obtain ⟨c, rfl, hc⟩ := hb
    rw [if_pos rfl]
    refine run_next rfl ?_
    rw [read_of_break rfl hc]
    rfl
  | statement lineBreak =>
    obtain ⟨rfl, c, cs, rfl, hc⟩ := hb
    have hread : (clear kept gap (d :: closers) n).read (.statement (c :: cs)) c (cs ++ rest) =
        .next ⟨c :: (gap ++ kept), [], none, d :: closers, n, cs.length⟩ := by
      rw [read_of_break rfl hc]
      simp [readBreak, outside, keep]
    have hmode : Mode.statement (c :: cs) ≠ .attributeValue := by
      intro h
      contradiction
    rw [if_neg hmode, List.cons_append, run_next rfl hread, run_take]
    simp

/-- A scan passes what stands in brackets up to the bracket that closes them. -/
theorem run_inside (hd : isCloser d = true) (h : Inside mode g) (rest kept gap : List Char) :
    run mode (clear kept gap (d :: closers) n) (g ++ d :: rest) =
      run mode (clear (d :: (g.reverse ++ (gap ++ kept))) [] closers n) rest := by
  induction h generalizing kept gap closers d rest with
  | nil => exact run_closer hd rest
  | @literal q l cs hq hl _ ih =>
    have hpass : Passes mode (q :: l) := passes_literal hq hl
    rw [← List.cons_append, List.append_assoc, hpass, ih hd]
    simp
  | @group o d' g cs ho _ _ ihg ih =>
    rw [List.cons_append, run_opener ho, List.append_assoc, List.cons_append,
      ihg (isCloser_of_closer ho), ih hd]
    simp
  | @char c cs hc _ ih =>
    rw [List.cons_append, run_single hc, ih hd, ih hd]
    simp
  | @lineBreak b cs hb _ ih =>
    rw [List.append_assoc, run_continues hb, ih hd, ih hd]
    cases mode with
    | inline => exact hb.elim
    | attributeValue =>
      obtain ⟨c, rfl, -⟩ := hb
      simp
    | statement lineBreak => simp

/-- A scan passes a group. -/
theorem passes_group (ho : closer? c = some d) (h : Inside mode g) :
    Passes mode (c :: (g ++ [d])) := by
  intro kept gap closers n rest
  rw [List.cons_append, run_opener ho, List.append_assoc]
  refine (run_inside (isCloser_of_closer ho) h ..).trans ?_
  simp

/-! ### Out of strings and groups -/

/-- A scan that finds an expression goes on behind the next character or stops before it. -/
theorem run_cases (hn : s.unread = 0) (h : run mode s (c :: rest) = .upTo e) :
    (∃ t, s.read mode c rest = .next t ∧ run mode t rest = .upTo e) ∨
      s.read mode c rest = .stop ∧ s.result = .upTo e := by
  rw [run, hn] at h
  dsimp only at h
  split at h
  · rename_i t ht
    exact .inl ⟨t, ht, h⟩
  · rename_i hstop
    exact .inr ⟨hstop, h⟩
  · contradiction
  · contradiction

/-- A scan that finds an expression from within a string comes to the end of the string. -/
theorem exists_literal (h : run mode ⟨kept, gap, some q, closers, n, 0⟩ t = .upTo e) :
    ∃ l rest, t = l ++ rest ∧ Literal q l := by
  induction hlen : t.length using Nat.strong_induction_on generalizing t kept gap with
  | _ m ih =>
  subst hlen
  cases t with
  | nil => contradiction
  | cons c t =>
    by_cases hslash : c = '\\'
    · subst hslash
      cases t with
      | nil => contradiction
      | cons x t =>
        have hread : read ⟨kept, gap, some q, closers, n, 0⟩ mode '\\' (x :: t) =
            .next ⟨'\\' :: (gap ++ kept), [], some q, closers, n, 1⟩ := rfl
        rw [run_next rfl hread, run_unread rfl] at h
        obtain ⟨l, rest, rfl, hl⟩ := ih t.length (by simp) h rfl
        exact ⟨'\\' :: x :: l, rest, rfl, hl.hidden⟩
    · by_cases hpass : (isBreak c && q != '\x60') = true
      · have hread : read ⟨kept, gap, some q, closers, n, 0⟩ mode c t = .refuse := by
          simp [read, readQuoted, hslash, hpass]
        rcases run_cases rfl h with ⟨s, hs, -⟩ | ⟨hs, -⟩
        all_goals rw [hread] at hs; contradiction
      · by_cases hc : c = q
        · subst hc
          exact ⟨[c], t, rfl, .close⟩
        · have hread : read ⟨kept, gap, some q, closers, n, 0⟩ mode c t =
              .next ⟨c :: (gap ++ kept), [], some q, closers, n, 0⟩ := by
            simp [read, readQuoted, hslash, hpass, hc, keep]
          rw [run_next rfl hread] at h
          obtain ⟨l, rest, rfl, hl⟩ := ih t.length (by simp) h rfl
          refine ⟨c :: l, rest, rfl, .char hslash hc ?_ hl⟩
          simpa using hpass

/-- A line break in brackets behind which a scan finds an expression is one that the mode lets
pass. -/
theorem exists_continues (hc : isBreak c = true)
    (h : run mode (clear kept gap (d :: closers) n) (c :: t) = .upTo e) :
    ∃ b rest, c :: t = b ++ rest ∧ Continues mode b ∧ b ≠ [] := by
  have hread : (clear kept gap (d :: closers) n).read mode c t =
      (clear kept gap (d :: closers) n).readBreak mode c t := read_of_break rfl hc
  cases mode with
  | inline => 
    rcases run_cases rfl h with ⟨s, hs, -⟩ | ⟨hs, -⟩
    all_goals rw [hread] at hs; contradiction
  | attributeValue => exact ⟨[c], t, rfl, ⟨c, rfl, hc⟩, by simp⟩
  | statement lineBreak =>
    by_cases hprefix : !lineBreak.isEmpty && lineBreak.isPrefixOf (c :: t)
    · rw [Bool.and_eq_true, Bool.not_eq_true', List.isEmpty_eq_false_iff,
        List.isPrefixOf_iff_prefix] at hprefix
      obtain ⟨hne, rest, hrest⟩ := hprefix
      obtain ⟨x, cs, rfl⟩ := List.exists_cons_of_ne_nil hne
      obtain rfl : x = c := (List.cons.inj hrest).1
      exact ⟨x :: cs, rest, hrest.symm, ⟨rfl, x, cs, rfl, hc⟩, hne⟩
    · have hrefuse : (clear kept gap (d :: closers) n).readBreak (.statement lineBreak) c t =
          .refuse := by
        simp [readBreak, outside, hprefix]
      rcases run_cases rfl h with ⟨s, hs, -⟩ | ⟨hs, -⟩
      all_goals rw [hread, hrefuse] at hs; contradiction

/-- A scan that finds an expression from within brackets comes to the bracket that closes them. -/
theorem exists_inside (h : run mode (clear kept gap (d :: closers) n) t = .upTo e) :
    ∃ g rest, t = g ++ d :: rest ∧ Inside mode g := by
  induction hlen : t.length using Nat.strong_induction_on generalizing t kept gap d closers with
  | _ m ih =>
  subst hlen
  cases t with
  | nil => contradiction
  | cons c t =>
    rcases kinds c with hc | hc | ⟨x, hc⟩ | hc | hc
    · obtain ⟨b, rest, hrest, hb, hne⟩ := exists_continues hc h
      have hlt : rest.length < (c :: t).length := by
        rw [hrest, List.length_append]
        exact Nat.lt_add_of_pos_left (List.length_pos_of_ne_nil hne)
      rw [hrest, run_continues hb] at h
      have hinside : ∃ g others, rest = g ++ d :: others ∧ Inside mode g := by
        split at h
        · exact ih _ hlt h rfl
        · exact ih _ hlt h rfl
      obtain ⟨g, others, rfl, hg⟩ := hinside
      exact ⟨b ++ g, others, by rw [hrest, List.append_assoc], hg.lineBreak hb⟩
    · rw [run_quote hc] at h
      obtain ⟨l, rest, rfl, hl⟩ := exists_literal h
      rw [run_literal hc hl] at h
      obtain ⟨g, others, rfl, hg⟩ := ih rest.length (by simp) h rfl
      exact ⟨c :: (l ++ g), others, by simp, hg.literal hc hl⟩
    · rw [run_opener hc] at h
      obtain ⟨g, rest, rfl, hg⟩ := ih t.length (by simp) h rfl
      rw [run_inside (isCloser_of_closer hc) hg] at h
      obtain ⟨g', others, rfl, hg'⟩ := ih rest.length (by simp; omega) h rfl
      exact ⟨c :: (g ++ x :: g'), others, by simp, .group hc hg hg'⟩
    · have hread : (clear kept gap (d :: closers) n).read mode c t =
          (clear kept gap (d :: closers) n).readCloser c := read_of_closer rfl hc
      by_cases hcd : c = d
      · subst hcd
        exact ⟨[], t, rfl, .nil⟩
      · have hrefuse : (clear kept gap (d :: closers) n).readCloser c = .refuse := by
          simp [readCloser, hcd]
        rcases run_cases rfl h with ⟨s, hs, -⟩ | ⟨hs, -⟩
        all_goals rw [hread, hrefuse] at hs; contradiction
    · rw [run_single hc] at h
      have hinside : ∃ g others, t = g ++ d :: others ∧ Inside mode g := by
        split at h
        · exact ih _ (Nat.lt_succ_self _) h rfl
        · exact ih _ (Nat.lt_succ_self _) h rfl
      obtain ⟨g, others, rfl, hg⟩ := hinside
      exact ⟨c :: g, others, rfl, hg.char hc⟩

/-! ### Over a row of items -/

theorem readOutside_of_plain (hc : c ≠ '?') (hsep : c ∉ separators mode) :
    s.readOutside mode c rest = .next (s.keep c) := by
  unfold readOutside
  cases mode <;> split <;> simp_all [separators]

theorem readOutside_of_separator (hsep : c ∈ separators mode)
    (hcolon : c = ':' → s.conditionals = 0) : s.readOutside mode c rest = .stop := by
  unfold readOutside
  cases mode <;> split <;> simp_all [separators]

/-- The characters that end an expression are items of one character elsewhere. -/
theorem isSingle_of_separator (hsep : c ∈ separators mode) : IsSingle c ∧ isSpacing c = false := by
  have hcs : c = ',' ∨ c = ':' ∨ c = ';' := by
    cases mode with
    | inline => exact .inr (.inl (List.mem_singleton.1 hsep))
    | attributeValue => exact (List.mem_pair.1 hsep).imp_right .inl
    | statement lineBreak => exact .inr (.inr (List.mem_singleton.1 hsep))
  rcases hcs with rfl | rfl | rfl <;> exact ⟨⟨rfl, rfl, rfl, rfl⟩, rfl⟩

theorem isSingle_of_isSpacing (hsp : isSpacing c = true) : IsSingle c := by
  rw [isSpacing, Bool.or_eq_true, beq_iff_eq, beq_iff_eq] at hsp
  rcases hsp with rfl | rfl <;> exact ⟨rfl, rfl, rfl, rfl⟩

theorem run_pair (rest : List Char) :
    run mode (clear kept gap [] n) ('?' :: '?' :: rest) =
      run mode (clear ('?' :: '?' :: (gap ++ kept)) [] [] n) rest := by
  cases mode <;> rfl

theorem run_optional (h : t.head? = some '.') :
    run mode (clear kept gap [] n) ('?' :: t) =
      run mode (clear ('?' :: (gap ++ kept)) [] [] n) t := by
  obtain ⟨rest, rfl⟩ := List.head?_eq_some_iff.1 h
  cases mode <;> rfl

theorem readOutside_question : s.readOutside mode '?' rest =
    match rest.head? with
    | some '?' => .next { s.keep '?' with unread := 1 }
    | some '.' => .next (s.keep '?')
    | _ => .next { s.keep '?' with conditionals := s.conditionals + 1 } := by
  cases mode <;> rfl

theorem run_condition (h : t.head? ≠ some '?' ∧ t.head? ≠ some '.') :
    run mode (clear kept gap [] n) ('?' :: t) =
      run mode (clear ('?' :: (gap ++ kept)) [] [] (n + 1)) t := by
  refine run_next rfl ?_
  rw [read_of_single rfl ⟨rfl, rfl, rfl, rfl⟩ rfl]
  refine readOutside_question.trans ?_
  split
  · exact absurd ‹_› h.1
  · exact absurd ‹_› h.2
  · rfl

theorem run_colon (h : ':' ∈ separators mode) (rest : List Char) :
    run mode (clear kept gap [] (n + 1)) (':' :: rest) =
      run mode (clear (':' :: (gap ++ kept)) [] [] n) rest := by
  cases mode with
  | inline => rfl
  | attributeValue => rfl
  | statement lineBreak => simp [separators] at h

theorem run_plain (hc : IsSingle c) (hsp : isSpacing c = false) (hquestion : c ≠ '?')
    (hsep : c ∉ separators mode) (rest : List Char) :
    run mode (clear kept gap [] n) (c :: rest) =
      run mode (clear (c :: (gap ++ kept)) [] [] n) rest := by
  refine run_next rfl ?_
  rw [read_of_single rfl hc hsp]
  exact readOutside_of_plain hquestion hsep

theorem run_spacing (hmode : mode ≠ .attributeValue) (hsp : isSpacing c = true)
    (rest : List Char) :
    run mode (clear kept gap [] n) (c :: rest) = run mode (clear kept (c :: gap) [] n) rest := by
  refine run_next rfl ?_
  rw [read_of_spacing rfl hsp, readSpacing, if_neg (by simp [hmode])]
  rfl

/-- A scan ends before what ends the expression. -/
theorem run_stops (hmode : mode ≠ .attributeValue) (h : Stops mode n t) (hkept : kept ≠ []) :
    run mode (clear kept gap [] n) t = .upTo kept.reverse := by
  have hresult : (clear kept gap [] n).result = .upTo kept.reverse := by
    rw [result, if_neg (by simpa using hkept)]
  cases t with
  | nil => exact hresult
  | cons c t =>
    suffices hread : (clear kept gap [] n).read mode c t = .stop by
      rw [run, hread]
      exact hresult
    rcases h with hc | hc | ⟨hc, hcolon⟩ | ⟨hvalue, -⟩
    · rw [read_of_break rfl hc]
      rfl
    · rw [read_of_closer rfl hc]
      rfl
    · obtain ⟨hsingle, hsp⟩ := isSingle_of_separator hc
      rw [read_of_single rfl hsingle hsp]
      exact readOutside_of_separator hc hcolon
    · contradiction

/-- Behind a text that does not end in spacing nothing is set aside. -/
theorem dropWhile_concat {v : List Char} {x : Char} (hx : isSpacing x = false)
    (before : List Char) :
    ([] ++ ((v ++ [x]).reverse ++ before)).dropWhile isSpacing = (v ++ [x]).reverse ++ before := by
  rw [List.reverse_append, List.nil_append]
  exact List.dropWhile_cons_of_neg (by simp [hx])

/-- A scan finds the expression that a row of items makes up. -/
theorem run_items (hmode : mode ≠ .attributeValue) (hw : Items mode n w k)
    (ht : Stops mode k t) (hgap : (gap ++ kept).dropWhile isSpacing = kept)
    (he : e.reverse = (w.reverse ++ (gap ++ kept)).dropWhile isSpacing) (hne : e ≠ []) :
    run mode (clear kept gap [] n) (w ++ t) = .upTo e := by
  induction hw generalizing kept gap with
  | nil =>
    rw [List.reverse_nil, List.nil_append, hgap] at he
    rw [List.nil_append, run_stops hmode ht (by simpa [← he] using hne), ← he, List.reverse_reverse]
  | @literal n k q l w hq hl _ ih =>
    obtain ⟨cs, rfl⟩ := hl.exists_concat
    have hsp := not_spacing_of_isQuote hq
    rw [← List.cons_append, List.append_assoc, passes_literal hq hl]
    refine ih ht (dropWhile_concat (v := q :: cs) hsp _) ?_
    rw [he]
    simp
  | @group n k o d g w ho hg _ ih => 
    have hsp := not_spacing_of_isCloser (isCloser_of_closer ho)
    have hpass := passes_group ho hg kept gap [] n (w ++ t)
    have hassoc : o :: (g ++ d :: w) ++ t = o :: (g ++ [d]) ++ (w ++ t) := by simp
    rw [hassoc, hpass]
    refine ih ht (dropWhile_concat (v := o :: g) hsp _) ?_
    rw [he]
    simp
  | @pair n k w _ ih => 
    rw [List.cons_append, List.cons_append, run_pair]
    refine ih ht (dropWhile_concat (v := ['?']) rfl _) ?_
    rw [he]
    simp
  | @optional n k w hdot _ ih =>
    have hdot : (w ++ t).head? = some '.' := by
      rw [List.head?_append, hdot]
      rfl
    rw [List.cons_append, run_optional hdot]
    refine ih ht (dropWhile_concat (v := []) rfl _) ?_
    rw [he]
    simp
  | @condition n k w hnext _ ih => 
    have hnext : (w ++ t).head? ≠ some '?' ∧ (w ++ t).head? ≠ some '.' := by
      cases w with
      | nil => exact ht.head?_ne
      | cons c w => exact hnext
    rw [List.cons_append, run_condition hnext]
    refine ih ht (dropWhile_concat (v := []) rfl _) ?_
    rw [he]
    simp
  | @colon n k w hsep _ ih => 
    rw [List.cons_append, run_colon hsep]
    refine ih ht (dropWhile_concat (v := []) rfl _) ?_
    rw [he]
    simp
  | @char n k c w hc hquestion hsep _ ih =>
    rw [List.cons_append]
    by_cases hsp : isSpacing c = true
    · rw [run_spacing hmode hsp]
      refine ih ht ?_ ?_
      · rw [List.cons_append, List.dropWhile_cons_of_pos hsp, hgap]
      · rw [he]
        simp
    · rw [run_plain hc (by simpa using hsp) hquestion hsep]
      refine ih ht (dropWhile_concat (v := []) (by simpa using hsp) _) ?_
      rw [he]
      simp

/-- Behind spacing a scan goes on with the spacing set aside. -/
theorem eq_of_readSpacing {s' : Scan} (h : s.readSpacing mode c rest = .next s') :
    s.setAside c = s' := by
  unfold readSpacing at h
  repeat' split at h
  all_goals cases h
  all_goals rfl

/-- Spacing ends the value of an attribute only. -/
theorem mode_of_readSpacing (h : s.readSpacing mode c rest = .stop) : mode = .attributeValue := by
  by_contra hmode
  rw [readSpacing, if_neg (by simp [hmode])] at h
  contradiction

/-- What a scan that finds an expression does at the front of a text: it ends there, or it keeps a text
that does not end in spacing and that makes a row with any row behind it. -/
inductive Ahead (mode : Mode) (kept gap : List Char) (n : Nat) (t e : List Char) : Prop where
  | stops (hresult : (clear kept gap [] n).result = .upTo e) (h : Stops mode n t) :
    Ahead mode kept gap n t e
  | moves {v : List Char} {x : Char} {rest : List Char} {m : Nat} (ht : t = v ++ [x] ++ rest)
    (hx : isSpacing x = false)
    (hrun : run mode (clear ((v ++ [x]).reverse ++ (gap ++ kept)) [] [] m) rest = .upTo e)
    (hitems : ∀ w others k, rest = w ++ others → Stops mode k others → Items mode m w k →
      Items mode n (v ++ [x] ++ w) k) : Ahead mode kept gap n t e

/-- A question mark counts to a row by what follows it. -/
theorem ahead_of_question (h : run mode (clear kept gap [] n) ('?' :: t) = .upTo e) :
    Ahead mode kept gap n ('?' :: t) e := by
  by_cases hpair : t.head? = some '?'
  · obtain ⟨rest, rfl⟩ := List.head?_eq_some_iff.1 hpair
    rw [run_pair] at h
    refine .moves (v := ['?']) rfl rfl h ?_
    intro w others k _ _ hw
    exact .pair hw
  · by_cases hdot : t.head? = some '.'
    · rw [run_optional hdot] at h
      refine .moves (v := []) rfl rfl h ?_
      rintro w others k rfl hstops hw
      refine .optional ?_ hw
      cases w with
      | nil => exact absurd hdot hstops.head?_ne.2
      | cons c w => exact hdot
    · rw [run_condition ⟨hpair, hdot⟩] at h
      refine .moves (v := []) rfl rfl h ?_
      rintro w others k rfl hstops hw
      refine .condition ?_ hw
      cases w with
      | nil =>
        constructor
        all_goals
          intro hc
          contradiction
      | cons c w => exact ⟨hpair, hdot⟩

/-- A character that may end an expression ends it, unless it is the colon of a conditional. -/
theorem ahead_of_separator (hsep : c ∈ separators mode)
    (h : run mode (clear kept gap [] n) (c :: t) = .upTo e) : Ahead mode kept gap n (c :: t) e := by
  by_cases hcolon : c = ':' ∧ n ≠ 0
  · obtain ⟨rfl, hn⟩ := hcolon
    obtain ⟨m, rfl⟩ := Nat.exists_eq_succ_of_ne_zero hn
    rw [run_colon hsep] at h
    refine .moves (v := []) rfl rfl h ?_
    intro w others k _ _ hw
    exact .colon hsep hw
  · have hn : c = ':' → n = 0 := by
      intro hc
      by_contra hn
      exact hcolon ⟨hc, hn⟩
    obtain ⟨hsingle, hsp⟩ := isSingle_of_separator hsep
    rcases run_cases rfl h with ⟨s, hs, -⟩ | ⟨-, hr⟩
    · rw [read_of_single rfl hsingle hsp] at hs
      rw [readOutside_of_separator (s := clear kept gap [] n) hsep hn] at hs
      contradiction
    · exact .stops hr (.inr (.inr (.inl ⟨hsep, hn⟩)))

theorem ahead_of_run (hsp : isSpacing c = false)
    (h : run mode (clear kept gap [] n) (c :: t) = .upTo e) : Ahead mode kept gap n (c :: t) e := by
  rcases kinds c with hc | hc | ⟨d, hc⟩ | hc | hc
  · rcases run_cases rfl h with ⟨s, hs, -⟩ | ⟨-, hr⟩
    · rw [read_of_break rfl hc] at hs
      contradiction
    · exact .stops hr (.inl hc)
  · have hquote := h
    rw [run_quote hc] at hquote
    obtain ⟨l, rest, rfl, hl⟩ := exists_literal hquote
    rw [← List.cons_append, passes_literal hc hl] at h
    obtain ⟨cs, rfl⟩ := hl.exists_concat
    refine .moves (v := c :: cs) rfl (not_spacing_of_isQuote hc) h ?_
    intro w others k _ _ hw
    exact .literal hc hl hw
  · have hopen := h
    rw [run_opener hc] at hopen
    obtain ⟨g, rest, rfl, hg⟩ := exists_inside hopen
    have hassoc : c :: (g ++ d :: rest) = c :: (g ++ [d]) ++ rest := by simp
    rw [hassoc, passes_group hc hg] at h
    refine .moves (v := c :: g) hassoc (not_spacing_of_isCloser (isCloser_of_closer hc)) h ?_
    intro w others k _ _ hw
    rw [List.append_assoc]
    exact .group hc hg hw
  · rcases run_cases rfl h with ⟨s, hs, -⟩ | ⟨-, hr⟩
    · rw [read_of_closer rfl hc] at hs
      contradiction
    · exact .stops hr (.inr (.inl hc))
  · by_cases hquestion : c = '?'
    · subst hquestion
      exact ahead_of_question h
    · by_cases hsep : c ∈ separators mode
      · exact ahead_of_separator hsep h
      · rw [run_plain hc hsp hquestion hsep] at h
        refine .moves (v := []) rfl hsp h ?_
        intro w others k _ _ hw
        exact .char hc hquestion hsep hw

/-- Where a scan ends, a row does. -/
theorem found_of_stops (hgap : (gap ++ kept).dropWhile isSpacing = kept)
    (hresult : (clear kept gap [] n).result = .upTo e) (h : Stops mode n t) :
    Found mode n (gap ++ kept) t e := by
  rw [result] at hresult
  split at hresult
  · contradiction
  · rename_i hkept
    obtain rfl := Extent.upTo.inj hresult
    refine ⟨[], t, n, rfl, .nil, h, ?_, by simpa using hkept⟩
    rw [List.reverse_reverse, List.reverse_nil, List.nil_append, hgap]

/-- A scan that finds an expression has passed a row of items. -/
theorem found_of_run (hgap : (gap ++ kept).dropWhile isSpacing = kept)
    (h : run mode (clear kept gap [] n) t = .upTo e) : Found mode n (gap ++ kept) t e := by
  induction hlen : t.length using Nat.strong_induction_on generalizing t kept gap n with
  | _ m ih =>
  subst hlen
  cases t with
  | nil => exact found_of_stops hgap h trivial
  | cons c t =>
    by_cases hsp : isSpacing c = true
    · have hplain : c ≠ '?' ∧ c ∉ separators mode := by
        constructor
        · rintro rfl
          contradiction
        · intro hsep
          rw [(isSingle_of_separator hsep).2] at hsp
          contradiction
      rcases run_cases rfl h with ⟨s, hs, hrun⟩ | ⟨hstop, hr⟩
      · -- The spacing is set aside, and counts to the row of what follows.
        rw [read_of_spacing rfl hsp] at hs
        obtain rfl := eq_of_readSpacing hs
        have hgap : (c :: gap ++ kept).dropWhile isSpacing = kept := by
          rw [List.cons_append, List.dropWhile_cons_of_pos hsp, hgap]
        have hfound : Found mode n (c :: gap ++ kept) t e :=
          ih t.length (Nat.lt_succ_self _) hgap hrun rfl
        refine hfound.prepend (v := [c]) ?_
        intro w others k _ _ hw
        exact .char (isSingle_of_isSpacing hsp) hplain.1 hplain.2 hw
      · refine found_of_stops hgap hr (.inr (.inr (.inr ⟨?_, hsp⟩)))
        rw [read_of_spacing rfl hsp] at hstop
        exact mode_of_readSpacing hstop
    · cases ahead_of_run (Bool.eq_false_of_not_eq_true hsp) h with
      | stops hresult hstops => exact found_of_stops hgap hresult hstops
      | @moves v x rest m ht hx hrun hitems =>
        rw [ht] at ih ⊢
        have hlt : rest.length < (v ++ [x] ++ rest).length := by
          rw [List.length_append, List.length_append]
          exact Nat.lt_add_of_pos_left (Nat.succ_pos _)
        exact (ih _ hlt (dropWhile_concat hx _) hrun rfl).prepend hitems

end Scan

end Extent

open Extent

/-- An expression at the start of a text is a row of items without the spacing at its end. -/
theorem found_of_extent {mode : Mode} {text e : List Char} (h : extent mode text = .upTo e) :
    Found mode 0 [] text e := by
  have hfound : Found mode 0 ([] ++ []) text e := Scan.found_of_run rfl h
  exact hfound

/-- An inline expression or a statement is found exactly where a row of items stands before the end
of the text or what ends the expression; it is the row without the spacing at its end. -/
theorem extent_eq_upTo_iff {mode : Mode} {text e : List Char} (hmode : mode ≠ .attributeValue) :
    extent mode text = .upTo e ↔ ∃ w others k, text = w ++ others ∧ Items mode 0 w k ∧
      Stops mode k others ∧ e = w.rdropWhile isSpacing ∧ e ≠ [] := by
  constructor
  · intro h
    obtain ⟨w, others, k, htext, hw, hothers, he, hne⟩ := found_of_extent h
    rw [List.append_nil] at he
    exact ⟨w, others, k, htext, hw, hothers, List.reverse_eq_iff.1 he, hne⟩
  · rintro ⟨w, others, k, rfl, hw, hothers, rfl, hne⟩
    refine Scan.run_items hmode hw hothers rfl ?_ hne
    rw [List.rdropWhile, List.reverse_reverse, List.append_nil, List.append_nil]

/-- A group that goes on with the indented next line, before a second statement. -/
theorem extent_eq_upTo_iff_group : extent (.statement ['\n', '\t'])
    ['f', '(', '\n', '\t', '1', ')', ' ', ';', 'g'] = .upTo ['f', '(', '\n', '\t', '1', ')'] := by
  have hmode : Mode.statement ['\n', '\t'] ≠ .attributeValue := by
    intro h
    contradiction
  have hinside : Inside (.statement ['\n', '\t']) ['\n', '\t', '1'] :=
    .lineBreak (b := ['\n', '\t']) ⟨rfl, '\n', _, rfl, rfl⟩ (.char ⟨rfl, rfl, rfl, rfl⟩ .nil)
  have hitems : Items (.statement ['\n', '\t']) 0 ['f', '(', '\n', '\t', '1', ')', ' '] 0 :=
    .char ⟨rfl, rfl, rfl, rfl⟩ (by decide) (by decide)
      (.group rfl hinside (.char ⟨rfl, rfl, rfl, rfl⟩ (by decide) (by decide) .nil))
  have hstops : Stops (.statement ['\n', '\t']) 0 [';', 'g'] :=
    .inr (.inr (.inl ⟨List.mem_singleton.2 rfl, by decide⟩))
  exact (extent_eq_upTo_iff hmode).2 ⟨_, _, 0, rfl, hitems, hstops, by decide, by decide⟩

end Pug

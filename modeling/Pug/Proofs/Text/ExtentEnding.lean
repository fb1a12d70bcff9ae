import Pug.Expression.Loose
import Pug.Proofs.Lockstep.Basic
import Pug.Proofs.Reading.Consulted

/-!
# Expressions written with other line endings

A scan over a text with another line ending goes as the scan over the text itself: it keeps the same
characters and ends at the same places. There is one exception. In a string, a backslash hides the
one character behind it, so of an ending of two characters it hides the first alone. Where no
backslash stands before a line feed, or the ending is one character, the extents correspond, and so
do the shapes that the loose parser tells.
-/

namespace Pug

open Text

namespace LineEnding

variable (e : LineEnding) {c : Char} {cs ds : List Char}

/-- A text that is given backwards, with each `\n` replaced by an ending. -/
def back (cs : List Char) : List Char :=
  (e.write cs.reverse).reverse

@[simp] theorem back_nil : e.back [] = [] := rfl

theorem reverse_back (cs : List Char) : (e.back cs).reverse = e.write cs.reverse :=
  List.reverse_reverse _

@[simp] theorem back_append (cs ds : List Char) : e.back (cs ++ ds) = e.back cs ++ e.back ds := by
  simp [back]

theorem back_cons (c : Char) (cs : List Char) :
    e.back (c :: cs) = (e.write [c]).reverse ++ e.back cs := by
  simp [back]

theorem back_cons_of_ne (h : c ≠ '\n') (cs : List Char) : e.back (c :: cs) = c :: e.back cs := by
  rw [back_cons, write_cons_of_ne h]
  rfl

@[simp] theorem isEmpty_back (cs : List Char) : (e.back cs).isEmpty = cs.isEmpty := by
  simp [back]

/-- Backwards as well, an ending starts with a break character. -/
theorem exists_back_eq_cons (cs : List Char) :
    ∃ x xs, e.back ('\n' :: cs) = x :: xs ∧ (x = '\n' ∨ x = '\r') := by
  rw [back_cons, write_cons_feed]
  cases e
  · exact ⟨'\n', _, rfl, .inl rfl⟩
  · exact ⟨'\r', _, rfl, .inr rfl⟩
  · exact ⟨'\n', _, rfl, .inl rfl⟩

section Rows

variable {p : Char → Bool} (hn : p '\n' = false) (hr : p '\r' = false)
include hn hr

theorem any_head?_back (cs : List Char) : (e.back cs).head?.any p = cs.head?.any p := by
  cases cs with
  | nil => rfl
  | cons c cs =>
    by_cases hc : c = '\n'
    · obtain ⟨x, xs, hx, rfl | rfl⟩ := e.exists_back_eq_cons cs <;> simp [hc, hx, hn, hr]
    · rw [e.back_cons_of_ne hc]
      rfl

theorem takeWhile_back (cs : List Char) : (e.back cs).takeWhile p = cs.takeWhile p := by
  induction cs with
  | nil => rfl
  | cons c cs ih =>
    by_cases hc : c = '\n'
    · obtain ⟨x, xs, hx, rfl | rfl⟩ := e.exists_back_eq_cons cs <;> simp [hc, hx, hn, hr]
    · rw [e.back_cons_of_ne hc, List.takeWhile_cons, List.takeWhile_cons, ih]

theorem dropWhile_back (cs : List Char) : (e.back cs).dropWhile p = e.back (cs.dropWhile p) := by
  induction cs with
  | nil => rfl
  | cons c cs ih =>
    by_cases hc : c = '\n'
    · rw [hc, List.dropWhile_cons, if_neg (by rw [hn]; decide)]
      obtain ⟨x, xs, hx, rfl | rfl⟩ := e.exists_back_eq_cons cs <;> simp [hx, hn, hr]
    · rw [e.back_cons_of_ne hc, List.dropWhile_cons, List.dropWhile_cons, ih]
      split
      · rfl
      · rw [e.back_cons_of_ne hc]

end Rows

theorem write_singleton_feed : e.write ['\n'] = e.chars := by
  rw [write_cons_feed, write_nil, List.append_nil]

/-- What a text begins with is written at its beginning, and nothing else. -/
theorem isPrefixOf_write (hc : '\r' ∉ cs) (hd : '\r' ∉ ds) :
    (e.write cs).isPrefixOf (e.write ds) = cs.isPrefixOf ds := by
  induction cs generalizing ds with
  | nil => simp
  | cons c cs ih =>
    rw [List.mem_cons, not_or] at hc
    cases ds with
    | nil =>
      obtain ⟨x, xs, hx, -⟩ := e.exists_chars_eq_cons
      rw [write_cons]
      split <;> simp [hx]
    | cons d ds =>
      rw [List.mem_cons, not_or] at hd
      have hrest := ih hc.2 hd.2
      by_cases hcn : c = '\n' <;> by_cases hdn : d = '\n'
      · rw [hcn, hdn, write_cons_feed, write_cons_feed]
        cases e <;> simp_all [chars]
      · have hn : ('\n' == d) = false := beq_eq_false_iff_ne.2 (Ne.symm hdn)
        have hr : ('\r' == d) = false := beq_eq_false_iff_ne.2 hd.1
        rw [hcn, write_cons_feed, write_cons_of_ne hdn]
        cases e <;> simp [chars, List.isPrefixOf, hn, hr]
      · have hn : (c == '\n') = false := beq_eq_false_iff_ne.2 hcn
        have hr : (c == '\r') = false := beq_eq_false_iff_ne.2 (Ne.symm hc.1)
        rw [hdn, write_cons_feed, write_cons_of_ne hcn]
        cases e <;> simp [chars, List.isPrefixOf, hn, hr]
      · rw [write_cons_of_ne hcn, write_cons_of_ne hdn, List.isPrefixOf, List.isPrefixOf, hrest]

/-- The first `n` characters of a text are written as `m` characters, or both numbers go beyond. -/
inductive Spells (e : LineEnding) : List Char → Nat → Nat → Prop where
  | zero (rest : List Char) : Spells e rest 0 0
  | nil (n m : Nat) : Spells e [] n m
  | cons {c : Char} {rest : List Char} {n m : Nat} (h : Spells e rest n m) :
    Spells e (c :: rest) (n + 1) ((e.write [c]).length + m)

theorem spells_append (w rest : List Char) : e.Spells (w ++ rest) w.length (e.write w).length := by
  induction w with
  | nil => exact .zero rest
  | cons c w ih =>
    have hw : e.write (c :: w) = e.write [c] ++ e.write w :=
      (write_append : e.write ([c] ++ w) = _)
    rw [List.cons_append, List.length_cons, hw, List.length_append]
    exact .cons ih

end LineEnding

/-- An ending that a backslash hides as a whole, or a text in which it hides none. -/
def Unhidden (e : LineEnding) (cs : List Char) : Prop :=
  e ≠ .crlf ∨ ¬['\\', '\n'] <:+: cs

namespace Extent

variable {e : LineEnding}

/-- The extent of the same expression where it is written with another line ending. -/
def write (e : LineEnding) : Extent → Extent
  | .upTo text => .upTo (e.write text)
  | .absent => .absent
  | .torn => .torn

@[simp] theorem write_lf (x : Extent) : x.write .lf = x := by
  cases x <;> simp [write]

theorem joint_back (before after : List Char) :
    joint (e.back before) after = joint before after := by
  unfold joint
  rw [e.any_head?_back rfl rfl, e.dropWhile_back rfl rfl, e.any_head?_back rfl rfl,
    e.takeWhile_back rfl rfl]

namespace Scan

variable {s t : Scan} {mode : Mode} {c : Char} {rest : List Char} {n m : Nat}

/-- The same scan over the text with another line ending, with `m` characters to take unread. -/
def write (e : LineEnding) (s : Scan) (m : Nat) : Scan :=
  { s with kept := e.back s.kept, gap := e.back s.gap, unread := m }

theorem result_write (s : Scan) (m : Nat) : (s.write e m).result = s.result.write e := by
  unfold result
  rw [show (s.write e m).kept = e.back s.kept from rfl, e.isEmpty_back]
  split
  · rfl
  · rw [e.reverse_back]
    rfl

/-- A character is kept as it is written. -/
theorem foldl_keep (s : Scan) (c : Char) (m : Nat) :
    (e.write [c]).foldl keep (s.write e m) = (s.keep c).write e m := by
  by_cases hc : c = '\n'
  · rw [hc]
    cases e <;> simp [write, keep, LineEnding.back_cons, LineEnding.write_cons_feed, LineEnding.chars]
  · rw [LineEnding.write_cons_of_ne hc]
    simp [write, keep, e.back_cons_of_ne hc]

/-- A blank is set aside as it is written. -/
theorem foldl_setAside (s : Scan) (c : Char) (m : Nat) :
    (e.write [c]).foldl setAside (s.write e m) = (s.setAside c).write e m := by
  by_cases hc : c = '\n'
  · rw [hc]
    cases e <;>
      simp [write, setAside, LineEnding.back_cons, LineEnding.write_cons_feed, LineEnding.chars]
  · rw [LineEnding.write_cons_of_ne hc]
    simp [write, setAside, e.back_cons_of_ne hc]

theorem keep_write (hc : c ≠ '\n') (s : Scan) (m : Nat) :
    (s.write e m).keep c = (s.keep c).write e m := by
  have h := foldl_keep (e := e) s c m
  rwa [LineEnding.write_cons_of_ne hc] at h

theorem setAside_write (hc : c ≠ '\n') (s : Scan) (m : Nat) :
    (s.write e m).setAside c = (s.setAside c).write e m := by
  have h := foldl_setAside (e := e) s c m
  rwa [LineEnding.write_cons_of_ne hc] at h

end Scan

/-- What the scan over the text with another line ending does. -/
def Move.write (e : LineEnding) : Move → Move
  | .next s => .next (s.write e s.unread)
  | .stop => .stop
  | .refuse => .refuse
  | .tear => .tear

namespace Scan

variable {s t : Scan} {mode : Mode} {c : Char} {rest : List Char} {n m : Nat}

/-- Of a mode, only the breaks of a statement are written otherwise. -/
theorem beq_attributeValue_write (mode : Mode) :
    (mode.write e == .attributeValue) = (mode == .attributeValue) := by
  cases mode <;> rfl

theorem readOutside_write (hc : c ≠ '\n') (hs : s.unread = 0) :
    (s.write e 0).readOutside (mode.write e) c rest = (s.readOutside mode c rest).write e := by
  have hk := keep_write (e := e) hc s 0
  unfold readOutside
  cases mode <;> dsimp only [Mode.write]
  all_goals
    repeat' split
    all_goals simp_all [Move.write, write, keep]

theorem readQuoted_write (hc : c ≠ '\n') (hb : isBreak c = false) (hs : s.unread = 0)
    (quote : Char) : (s.write e 0).readQuoted quote c = (s.readQuoted quote c).write e := by
  have hk := keep_write (e := e) hc s 0
  unfold readQuoted
  rw [hk, hb]
  repeat' split
  all_goals simp_all [Move.write, write, keep]

theorem readSpacing_write (hc : c ≠ '\n') (hs : s.unread = 0) :
    (s.write e 0).readSpacing (mode.write e) c rest = (s.readSpacing mode c rest).write e := by
  have ha := setAside_write (e := e) hc s 0
  unfold readSpacing
  rw [beq_attributeValue_write, ha, show (s.write e 0).kept = e.back s.kept from rfl, e.isEmpty_back,
    joint_back]
  change (if (s.outside && _ && _) = true then _ else _) = _
  repeat' split
  all_goals simp_all [Move.write, write, setAside]

theorem readCloser_write (hc : c ≠ '\n') (hs : s.unread = 0) :
    (s.write e 0).readCloser c = (s.readCloser c).write e := by
  have hk := keep_write (e := e) hc s 0
  unfold readCloser
  rw [hk, show (s.write e 0).closers = s.closers from rfl]
  repeat' split
  all_goals simp_all [Move.write, write, keep]

/-- What a scan does on a character that is no line break. -/
theorem read_write (hb : isBreak c = false) (hs : s.unread = 0) :
    (s.write e 0).read (mode.write e) c rest = (s.read mode c rest).write e := by
  have hc : c ≠ '\n' := by
    rintro rfl
    contradiction
  have hnext {t : Scan} (ht : t.unread = 0) : Move.next (t.write e 0) = (Move.next t).write e := by
    rw [Move.write, ht]
  unfold read
  rw [show (s.write e 0).quote = s.quote from rfl, hb, readSpacing_write hc hs,
    readCloser_write hc hs, readOutside_write hc hs, keep_write hc]
  cases hq : s.quote with
  | some quote => exact readQuoted_write hc hb hs quote
  | none =>
    dsimp only
    repeat' split
    all_goals first | contradiction | rfl | skip
    · exact hnext (t := { s.keep c with quote := some c }) hs
    · exact hnext (t := { s.keep c with closers := _ :: s.closers }) hs
    · exact hnext (t := s.keep c) hs

/-- Only behind a backslash or between two question marks a character is taken unread, apart from
the continuation of a line. -/
theorem unread_of_read (hb : isBreak c = false) (hs : s.unread = 0)
    (h : s.read mode c rest = .next t) :
    t.unread = 0 ∨ t.unread = 1 ∧ (c = '\\' ∨ rest.head? = some '?') := by
  unfold read readQuoted readSpacing readCloser readOutside at h
  rw [hb] at h
  repeat' split at h
  all_goals first | contradiction | cases h
  all_goals first | exact .inl hs | exact .inr ⟨rfl, .inr ‹_›⟩ | skip
  rename_i hc
  exact .inr ⟨rfl, .inl (beq_iff_eq.1 hc)⟩

/-- What is taken unread behind a character is one character in the other text as well. -/
theorem spells_of_read (hb : isBreak c = false) (hs : s.unread = 0) (hh : Unhidden e (c :: rest))
    (h : s.read mode c rest = .next t) : e.Spells rest t.unread t.unread := by
  rcases unread_of_read hb hs h with hu | ⟨hu, hc⟩
  · rw [hu]
    exact .zero rest
  · rw [hu]
    cases rest with
    | nil => exact .nil 1 1
    | cons d rest =>
      suffices hlen : (e.write [d]).length = 1 by
        have := LineEnding.Spells.cons (c := d) (.zero (e := e) rest)
        rwa [hlen] at this
      by_cases hd : d = '\n'
      · subst hd
        rcases hc with rfl | hc
        · have he : e ≠ .crlf := hh.resolve_right (not_not_intro ⟨[], rest, rfl⟩)
          cases e <;> first | rfl | contradiction
        · exact absurd (Option.some.inj hc) (by decide)
      · rw [LineEnding.write_cons_of_ne hd]
        rfl

/-- Characters that are taken unread. -/
theorem run_all_unread (s : Scan) (ds rest : List Char) (n : Nat) :
    run mode { s with unread := ds.length + n } (ds ++ rest) =
      run mode { ds.foldl keep s with unread := n } rest := by
  induction ds generalizing s with
  | nil => simp
  | cons d ds ih =>
    rw [List.length_cons, Nat.add_right_comm, List.cons_append, run]
    exact ih (s.keep d)

/-- An expression is not empty. -/
theorem ne_nil_of_run {text : List Char} (h : run mode s rest = .upTo text) : text ≠ [] := by
  have hresult {s : Scan} (h : s.result = .upTo text) : text ≠ [] := by
    unfold result at h
    split at h
    · contradiction
    · cases h
      simpa using ‹¬s.kept.isEmpty = true›
  induction rest generalizing s with
  | nil =>
    rw [run] at h
    split at h
    · contradiction
    · exact hresult h
  | cons c rest ih =>
    rw [run] at h
    split at h
    · exact ih h
    · split at h
      · exact ih h
      · exact hresult h
      · contradiction
      · contradiction

section Steps

variable (hu : s.unread = 0)
include hu

theorem run_of_next (h : s.read mode c rest = .next t) : run mode s (c :: rest) = run mode t rest := by
  rw [run, hu, h]

theorem run_of_stop (h : s.read mode c rest = .stop) : run mode s (c :: rest) = s.result := by
  rw [run, hu, h]

theorem run_of_refuse (h : s.read mode c rest = .refuse) : run mode s (c :: rest) = .absent := by
  rw [run, hu, h]

theorem run_of_tear (h : s.read mode c rest = .tear) : run mode s (c :: rest) = .torn := by
  rw [run, hu, h]

end Steps

/-- Characters that are all read in the same way. -/
theorem run_foldl {f : Scan → Char → Scan} (P : Scan → Prop) {ds : List Char}
    (h : ∀ t, P t → ∀ d ∈ ds, ∀ rest,
      t.unread = 0 ∧ t.read mode d rest = .next (f t d) ∧ P (f t d))
    (hs : P s) (rest : List Char) : run mode s (ds ++ rest) = run mode (ds.foldl f s) rest := by
  induction ds generalizing s with
  | nil => rfl
  | cons d ds ih =>
    obtain ⟨hu, hread, hp⟩ := h s hs d (List.mem_cons_self ..) (ds ++ rest)
    rw [List.cons_append, run_of_next hu hread]
    exact ih (fun t ht x hx ↦ h t ht x (List.mem_cons_of_mem _ hx)) hp

/-- Of the strings, only a template goes on over a line break. -/
theorem read_break_quoted {quote : Char} (hq : s.quote = some quote) (hb : isBreak c = true) :
    s.read mode c rest = if quote = '\x60' then .next (s.keep c) else .refuse := by
  have hc : (c == '\\') = false := beq_eq_false_iff_ne.2 (by rintro rfl; contradiction)
  unfold read readQuoted
  rw [hq]
  dsimp only
  rw [hc, hb, Bool.true_and, if_neg (by decide)]
  by_cases h : quote = '\x60'
  · have hne : (c == '\x60') = false := beq_eq_false_iff_ne.2 (by rintro rfl; contradiction)
    rw [h, if_pos rfl, if_neg (by decide), hne, if_neg (by decide)]
  · rw [if_neg h, if_pos (by simpa using h)]

/-- In a bracket, the mode tells what a line break is. -/
theorem read_break_inside (hq : s.quote = none) (ho : s.outside = false) (hb : isBreak c = true) :
    s.read mode c rest =
      match mode with
      | .inline => .refuse
      | .attributeValue => .next (s.setAside c)
      | .statement lineBreak =>
        if !lineBreak.isEmpty && lineBreak.isPrefixOf (c :: rest) then
          .next { s.keep c with unread := lineBreak.length - 1 }
        else .refuse := by
  have hin : ¬s.outside = true := by rw [ho]; decide
  cases mode <;> exact (read_of_break hq hb).trans (if_neg hin)

theorem read_break_outside (hq : s.quote = none) (ho : s.outside = true) (hb : isBreak c = true) :
    s.read mode c rest = .stop := by
  rw [read_of_break hq hb, readBreak.eq_def, if_pos ho]

/-- Scans that come to a text in corresponding states end alike. -/
def EndAlike (e : LineEnding) (mode : Mode) (rest : List Char) : Prop :=
  ∀ (t : Scan) (m : Nat), e.Spells rest t.unread m →
    run (mode.write e) (t.write e m) (e.write rest) = (run mode t rest).write e

section Break

variable (hu : s.unread = 0) (ih : EndAlike e mode rest)
include hu

/-- A line break in a string: a template keeps it, however it is written. -/
theorem endAlike_quoted (ih : EndAlike e mode rest) {quote : Char} (hq : s.quote = some quote) :
    run (mode.write e) (s.write e 0) (e.write ('\n' :: rest)) =
      (run mode s ('\n' :: rest)).write e := by
  rw [LineEnding.write_cons_feed]
  by_cases h : quote = '\x60'
  · subst h
    have hread {t : Scan} {mode : Mode} {d : Char} {rest : List Char} (hq : t.quote = some '\x60')
        (hd : isBreak d = true) : t.read mode d rest = .next (t.keep d) := by
      rw [read_break_quoted hq hd, if_pos rfl]
    calc run (mode.write e) (s.write e 0) (e.chars ++ e.write rest)
        = run (mode.write e) (e.chars.foldl keep (s.write e 0)) (e.write rest) :=
          run_foldl (s := s.write e 0) (fun t ↦ t.quote = some '\x60' ∧ t.unread = 0)
            (fun t ⟨hq, hu⟩ d hd _ ↦ ⟨hu, hread hq (LineEnding.isBreak_of_mem_chars hd), hq, hu⟩)
            ⟨hq, rfl⟩ _
      _ = (run mode (s.keep '\n') rest).write e := by
        rw [← e.write_singleton_feed, foldl_keep]
        exact ih _ 0 (hu.symm ▸ .zero rest)
      _ = (run mode s ('\n' :: rest)).write e := by rw [run_of_next hu (hread hq rfl)]
  · obtain ⟨x, xs, hx, hxb⟩ := e.exists_chars_eq_cons
    have hread {t : Scan} {mode : Mode} {d : Char} {rest : List Char} (hq : t.quote = some quote)
        (hd : isBreak d = true) : t.read mode d rest = .refuse := by
      rw [read_break_quoted hq hd, if_neg h]
    rw [hx, List.cons_append, run_of_refuse (s := s.write e 0) rfl (hread hq hxb),
      run_of_refuse hu (hread hq rfl)]
    rfl

/-- In a bracket, the line of a statement goes on where its continuation follows. -/
theorem endAlike_statement {lineBreak : List Char} (ih : EndAlike e (.statement lineBreak) rest)
    (hl : '\r' ∉ lineBreak) (hr : '\r' ∉ rest) (hq : s.quote = none) (ho : s.outside = false) :
    run (.statement (e.write lineBreak)) (s.write e 0) (e.write ('\n' :: rest)) =
      (run (.statement lineBreak) s ('\n' :: rest)).write e := by
  have hread {t : Scan} {lineBreak : List Char} {d : Char} {rest : List Char} (ht : t.quote = none)
      (hto : t.outside = false) (hd : isBreak d = true) : t.read (.statement lineBreak) d rest =
        if !lineBreak.isEmpty && lineBreak.isPrefixOf (d :: rest) then
          .next { t.keep d with unread := lineBreak.length - 1 }
        else .refuse :=
    read_break_inside ht hto hd
  have hprefix := e.isPrefixOf_write hl
    (show '\r' ∉ '\n' :: rest from List.not_mem_cons_of_ne_of_not_mem (by decide) hr)
  obtain ⟨x, xs, hx, hxb⟩ := e.exists_chars_eq_cons
  have hw : e.write ('\n' :: rest) = x :: (xs ++ e.write rest) := by
    rw [LineEnding.write_cons_feed, hx, List.cons_append]
  rw [hw] at hprefix ⊢
  by_cases h : (!lineBreak.isEmpty && lineBreak.isPrefixOf ('\n' :: rest)) = true
  · obtain ⟨tail, others, rfl, rfl⟩ :
        ∃ tail others, lineBreak = '\n' :: tail ∧ rest = tail ++ others := by
      rw [Bool.and_eq_true, List.isPrefixOf_iff_prefix] at h
      obtain ⟨hne, others, ho⟩ := h
      cases lineBreak with
      | nil => contradiction
      | cons c tail =>
        obtain ⟨rfl, rfl⟩ := List.cons.inj ho
        exact ⟨tail, others, rfl, rfl⟩
    have hwl : (e.write ('\n' :: tail)).length - 1 = xs.length + (e.write tail).length := by
      rw [LineEnding.write_cons_feed, hx, List.cons_append, List.length_cons, Nat.add_sub_cancel,
        List.length_append]
    have hkeep : xs.foldl keep ((s.write e 0).keep x) = (s.keep '\n').write e 0 := by
      rw [← foldl_keep, e.write_singleton_feed, hx]
      rfl
    rw [run_of_next hu ((hread hq ho rfl).trans (if_pos h)),
      run_of_next (s := s.write e 0) rfl ((hread (t := s.write e 0) hq ho hxb).trans
        (if_pos (by rw [LineEnding.isEmpty_write, hprefix, h]))), hwl]
    rw [run_all_unread, hkeep]
    exact ih { s.keep '\n' with unread := tail.length } _ (e.spells_append tail others)
  · rw [run_of_refuse hu ((hread hq ho rfl).trans (if_neg h)),
      run_of_refuse (s := s.write e 0) rfl ((hread (t := s.write e 0) hq ho hxb).trans
        (if_neg (by rwa [LineEnding.isEmpty_write, hprefix])))]
    rfl

end Break

/-- In a bracket, the line breaks of an attribute value are set aside. -/
theorem endAlike_attributeValue (hu : s.unread = 0) (ih : EndAlike e .attributeValue rest)
    (hq : s.quote = none) (ho : s.outside = false) :
    run .attributeValue (s.write e 0) (e.write ('\n' :: rest)) =
      (run .attributeValue s ('\n' :: rest)).write e := by
  have hread {t : Scan} {d : Char} {rest : List Char} (ht : t.quote = none) (hto : t.outside = false)
      (hd : isBreak d = true) : t.read .attributeValue d rest = .next (t.setAside d) :=
    read_break_inside ht hto hd
  rw [LineEnding.write_cons_feed, run_of_next hu (hread hq ho rfl)]
  calc run .attributeValue (s.write e 0) (e.chars ++ e.write rest)
      = run .attributeValue (e.chars.foldl setAside (s.write e 0)) (e.write rest) :=
        run_foldl (s := s.write e 0) (fun t ↦ t.unread = 0 ∧ t.quote = none ∧ t.outside = false)
          (fun t ⟨hu, ht⟩ d hd _ ↦
            ⟨hu, hread ht.1 ht.2 (LineEnding.isBreak_of_mem_chars hd), hu, ht⟩)
          ⟨rfl, hq, ho⟩ _
    _ = (run .attributeValue (s.setAside '\n') rest).write e := by
      rw [← e.write_singleton_feed, foldl_setAside]
      exact ih _ 0 (hu.symm ▸ .zero rest)

/-- A line break is read as a whole, however it is written. -/
theorem endAlike_break (hu : s.unread = 0) (ih : EndAlike e mode rest) (hr : '\r' ∉ rest)
    (hm : ∀ lineBreak, mode = .statement lineBreak → '\r' ∉ lineBreak) :
    run (mode.write e) (s.write e 0) (e.write ('\n' :: rest)) =
      (run mode s ('\n' :: rest)).write e := by
  cases hq : s.quote with
  | some quote => exact endAlike_quoted hu ih hq
  | none =>
    obtain ⟨x, xs, hx, hxb⟩ := e.exists_chars_eq_cons
    cases ho : s.outside with
    | true =>
      rw [LineEnding.write_cons_feed, hx, List.cons_append,
        run_of_stop (s := s.write e 0) rfl (read_break_outside hq ho hxb), result_write,
        run_of_stop hu (read_break_outside hq ho rfl)]
    | false =>
      cases mode with
      | inline =>
        have hread {t : Scan} {d : Char} {rest : List Char} (ht : t.quote = none)
            (hto : t.outside = false) (hd : isBreak d = true) : t.read .inline d rest = .refuse :=
          read_break_inside ht hto hd
        rw [LineEnding.write_cons_feed, hx, List.cons_append, show Mode.inline.write e = .inline from rfl,
          run_of_refuse (s := s.write e 0) rfl (hread hq ho hxb), run_of_refuse hu (hread hq ho rfl)]
        rfl
      | attributeValue => exact endAlike_attributeValue hu ih hq ho
      | statement lineBreak => exact endAlike_statement hu ih (hm _ rfl) hr hq ho

/-- Any other character is read as it is. -/
theorem endAlike_other (hu : s.unread = 0) (ih : EndAlike e mode rest) (hb : isBreak c = false)
    (hh : Unhidden e (c :: rest)) :
    run (mode.write e) (s.write e 0) (e.write (c :: rest)) = (run mode s (c :: rest)).write e := by
  have hread : (s.write e 0).read (mode.write e) c (e.write rest) = (s.read mode c rest).write e := by
    have hline : OnLine ((s.write e 0).read (mode.write e) c) := fun _ hm _ ↦ read_append hm hb
    rw [hline.eq LineEnding.firstLine_write, read_write hb hu]
  rw [LineEnding.write_cons_of_ne (by rintro rfl; contradiction)]
  cases h : s.read mode c rest with
  | next t =>
    rw [run_of_next (s := s.write e 0) rfl (hread.trans (by rw [h]; rfl)), run_of_next hu h]
    exact ih t t.unread (spells_of_read hb hu hh h)
  | stop =>
    rw [run_of_stop (s := s.write e 0) rfl (hread.trans (by rw [h]; rfl)), run_of_stop hu h,
      result_write]
  | refuse =>
    rw [run_of_refuse (s := s.write e 0) rfl (hread.trans (by rw [h]; rfl)), run_of_refuse hu h]
    rfl
  | tear =>
    rw [run_of_tear (s := s.write e 0) rfl (hread.trans (by rw [h]; rfl)), run_of_tear hu h]
    rfl

/-- Scans of corresponding texts end alike. -/
theorem endAlike (hr : '\r' ∉ rest) (hh : Unhidden e rest)
    (hm : ∀ lineBreak, mode = .statement lineBreak → '\r' ∉ lineBreak) : EndAlike e mode rest := by
  induction rest with
  | nil =>
    intro s m _
    rw [LineEnding.write_nil, run, run, result_write]
    change (if (s.quote.isSome || !s.outside) = true then _ else _) = _
    split <;> rfl
  | cons c rest ih =>
    rw [List.mem_cons, not_or] at hr
    have ih : EndAlike e mode rest :=
      ih hr.2 (hh.imp_right fun h hi ↦ h (hi.trans (List.suffix_cons c rest).isInfix))
    intro s m hs
    cases hu : s.unread with
    | succ n =>
      -- What is taken unread is kept as it is written.
      rw [hu] at hs
      cases hs with
      | @cons _ _ _ m h =>
        have happ : e.write (c :: rest) = e.write [c] ++ e.write rest :=
          (e.write_append : e.write ([c] ++ rest) = _)
        rw [happ, show s.write e _ = { s.write e 0 with unread := (e.write [c]).length + m } from rfl,
          run_all_unread, foldl_keep, run, hu]
        exact ih { s.keep c with unread := n } m h
    | zero =>
      obtain rfl : m = 0 := by
        rw [hu] at hs
        cases hs
        rfl
      cases hb : isBreak c with
      | true =>
        obtain rfl : c = '\n' := by
          rw [isBreak, Bool.or_eq_true, beq_iff_eq, beq_iff_eq] at hb
          exact hb.resolve_right (Ne.symm hr.1)
        exact endAlike_break hu ih hr.2 hm
      | false => exact endAlike_other hu ih hb hh

end Scan

end Extent

/-- The extent of an expression does not depend on the line ending. -/
theorem extent_write {e : LineEnding} {mode : Mode} {cs : List Char} (hr : '\r' ∉ cs)
    (hh : Unhidden e cs)
    (hm : e = .lf ∨ ∀ lineBreak, mode = .statement lineBreak → '\r' ∉ lineBreak) :
    extent (mode.write e) (e.write cs) = (extent mode cs).write e := by
  rcases hm with rfl | hm
  · rw [Mode.write_lf, LineEnding.write_lf, Extent.write_lf]
  · exact Extent.Scan.endAlike hr hh hm .init 0 (.zero cs)

namespace Shape

variable (e : LineEnding)

theorem afterGroup_string (quote c : Char) (depth : Nat) (rest : List Char) :
    afterGroup (some quote) depth (c :: rest) =
      if c == '\\' then afterGroup (some quote) depth rest.tail
      else afterGroup (if c == quote then none else some quote) depth rest := by
  cases rest <;> rw [afterGroup.eq_def] <;> rfl

/-- A line break is nothing to what looks for the end of a group. -/
theorem afterGroup_break {quote : Option Char} (hq : ∀ q ∈ quote, Extent.isQuote q = true)
    (depth : Nat) {c : Char} (hc : isBreak c = true) (rest : List Char) :
    afterGroup quote depth (c :: rest) = afterGroup quote depth rest := by
  rw [isBreak, Bool.or_eq_true, beq_iff_eq, beq_iff_eq] at hc
  cases quote with
  | none => rcases hc with rfl | rfl <;> simp [afterGroup, Extent.isQuote]
  | some q =>
    have hquote : Extent.isQuote q = true := hq q rfl
    have hne : ¬(c == q) = true := by
      rw [beq_iff_eq]
      rintro rfl
      rcases hc with rfl | rfl <;> exact absurd hquote (by decide)
    have hb : ¬(c == '\\') = true := by rcases hc with rfl | rfl <;> decide
    rw [afterGroup_string, if_neg hb, if_neg hne]

theorem afterGroup_breaks {quote : Option Char} (hq : ∀ q ∈ quote, Extent.isQuote q = true)
    (depth : Nat) {breaks : List Char} (hb : ∀ c ∈ breaks, isBreak c = true) (rest : List Char) :
    afterGroup quote depth (breaks ++ rest) = afterGroup quote depth rest := by
  induction breaks with
  | nil => rfl
  | cons c breaks ih =>
    rw [List.forall_mem_cons] at hb
    rw [List.cons_append, afterGroup_break hq depth hb.1, ih hb.2]

/-- Where a group ends does not depend on the line ending. -/
theorem afterGroup_write {quote : Option Char} (hq : ∀ q ∈ quote, Extent.isQuote q = true)
    (depth : Nat) (cs : List Char) :
    afterGroup quote depth (e.write cs) = (afterGroup quote depth cs).map e.write := by
  have hchars : ∀ c ∈ e.chars, isBreak c = true := fun c ↦ LineEnding.isBreak_of_mem_chars
  induction quote, depth, cs using afterGroup.induct with
  | case1 => rfl
  | case2 quote depth c h =>
    rw [beq_iff_eq.1 h]
    rfl
  | case3 quote depth c h d rest ih =>
    obtain rfl := beq_iff_eq.1 h
    rw [afterGroup_string, if_pos h, List.tail_cons, ← ih hq, LineEnding.write_cons_of_ne (by decide),
      afterGroup_string, if_pos h]
    by_cases hd : d = '\n'
    · -- Behind the hidden character, what is left of the ending is a line break or nothing.
      obtain ⟨x, xs, hx, -⟩ := e.exists_chars_eq_cons
      rw [hd, LineEnding.write_cons_feed, hx, List.cons_append, List.tail_cons]
      exact afterGroup_breaks hq depth (fun c hc ↦ hchars c (hx ▸ List.mem_cons_of_mem x hc)) _
    · rw [LineEnding.write_cons_of_ne hd, List.tail_cons]
  | case4 quote depth c rest h ih =>
    by_cases hc : c = '\n'
    · subst hc
      rw [LineEnding.write_cons_feed, afterGroup_breaks hq depth hchars, afterGroup_break hq depth rfl]
      have hne : ¬('\n' == quote) = true := by
        rw [beq_iff_eq]
        rintro rfl
        exact absurd (hq _ rfl) (by decide)
      rw [if_neg hne] at ih
      exact ih hq
    · rw [LineEnding.write_cons_of_ne hc, afterGroup_string, afterGroup_string, if_neg h, if_neg h]
      refine ih fun q h ↦ hq q ?_
      split at h
      · contradiction
      · exact h
  | case5 depth c rest h ih =>
    have hc : c ≠ '\n' := by rintro rfl; exact absurd h (by decide)
    have hstring (rest : List Char) :
        afterGroup none depth (c :: rest) = afterGroup (some c) depth rest := by
      rw [afterGroup.eq_def]
      exact if_pos h
    rw [LineEnding.write_cons_of_ne hc, hstring, hstring]
    exact ih fun q hq ↦ Option.some.inj hq ▸ h
  | case6 depth c rest h h' ih =>
    obtain rfl := beq_iff_eq.1 h'
    exact ih hq
  | case7 c rest h h' h'' =>
    obtain rfl := beq_iff_eq.1 h''
    rfl
  | case8 c rest h h' h'' depth ih =>
    obtain rfl := beq_iff_eq.1 h''
    exact ih hq
  | case9 depth c rest h h' h'' ih =>
    by_cases hc : c = '\n'
    · rw [hc, LineEnding.write_cons_feed, afterGroup_breaks hq depth hchars,
        afterGroup_break hq depth rfl]
      exact ih hq
    · have hother (rest : List Char) :
          afterGroup none depth (c :: rest) = afterGroup none depth rest := by
        rw [afterGroup.eq_def]
        exact (if_neg h).trans ((if_neg h').trans (if_neg h''))
      rw [LineEnding.write_cons_of_ne hc, hother, hother]
      exact ih hq

/-- The shape of a text does not depend on the line ending. -/
theorem ofText_write (cs : List Char) : ofText (e.write cs) = ofText cs := by
  have hgroup (rest : List Char) :
      (afterGroup none 0 (e.write rest) == some []) = (afterGroup none 0 rest == some []) := by
    rw [afterGroup_write e (by nofun), Bool.eq_iff_iff, beq_iff_eq, beq_iff_eq]
    simp
  cases cs with
  | nil => rfl
  | cons c cs =>
    by_cases hc : c = '\n'
    · obtain ⟨x, xs, hx, hb⟩ := e.exists_chars_eq_cons
      have hother {x : Char} {xs : List Char} (hb : isBreak x = true) : ofText (x :: xs) = .other := by
        have hname : isNameChar x = false := by
          rw [isBreak, Bool.or_eq_true, beq_iff_eq, beq_iff_eq] at hb
          rcases hb with rfl | rfl <;> decide
        rw [ofText, hname]
        rfl
      rw [hc, LineEnding.write_cons_feed, hx, List.cons_append, hother hb, hother rfl]
    · have hdrop : trimStart ((c :: e.write cs).dropWhile isNameChar) =
          e.write (trimStart ((c :: cs).dropWhile isNameChar)) := by
        rw [← LineEnding.write_cons_of_ne hc, LineEnding.dropWhile_write_of_not (by decide) (by decide),
          LineEnding.trimStart_write]
      rw [LineEnding.write_cons_of_ne hc, ofText, ofText, hdrop]
      generalize trimStart ((c :: cs).dropWhile isNameChar) = rest
      congr 1
      cases rest with
      | nil => rfl
      | cons d rest =>
        by_cases hd : d = '('
        · subst hd
          rw [LineEnding.write_cons_of_ne (by decide)]
          exact congrArg (fun b : Bool ↦ if b = true then Shape.callOnIdentifier else Shape.other)
            (hgroup rest)
        · have hfront : ∃ x xs, e.write (d :: rest) = x :: xs ∧ x ≠ '(' := by
            by_cases hn : d = '\n'
            · obtain ⟨x, xs, hx, hb⟩ := e.exists_chars_eq_cons
              rw [hn, LineEnding.write_cons_feed, hx]
              exact ⟨x, _, rfl, by rintro rfl; contradiction⟩
            · exact ⟨d, _, LineEnding.write_cons_of_ne hn, hd⟩
          obtain ⟨x, xs, hx, hxd⟩ := hfront
          rw [hx]
          simp [hd, hxd]

end Shape

namespace ExpressionParser

open Call

variable {mode : Mode} {cs : List Char}

theorem parse_loose (mode : Mode) (cs : List Char) (p : Unit) : (loose.parse mode cs p).1 =
    checkedAnswer (fun _ text ↦ some (Shape.ofText text)) mode cs := rfl

/-- The loose parser takes what the scan finds. -/
theorem taken?_loose (mode : Mode) (cs : List Char) (p : Unit) :
    taken? ⟨mode, cs, (loose.parse mode cs p).1⟩ =
      match extent mode cs with
      | .upTo text => some (Shape.ofText (trim text), text)
      | _ => none := by
  rw [parse_loose, checkedAnswer]
  cases hx : extent mode cs with
  | absent => rfl
  | torn => rfl
  | upTo text =>
    obtain ⟨others, ho⟩ := exists_eq_append_of_extent hx
    refine taken?_of_accepted rfl (Nat.pos_of_ne_zero fun h0 ↦ ?_) ho
    exact Extent.Scan.ne_nil_of_run hx (byteLength_eq_zero.1 h0)

/-- The loose parser breaks down where the scan is torn. -/
theorem loose_eq_brokeDown (mode : Mode) (cs : List Char) (p : Unit) :
    (loose.parse mode cs p).1 = .brokeDown ↔ extent mode cs = .torn := by
  rw [parse_loose, checkedAnswer]
  cases extent mode cs <;> simp

end ExpressionParser

end Pug

import Pug.Grammar.Code
import Pug.Proofs.Lockstep.Directive
import Pug.Proofs.Lockstep.Expression

/-!
# Blocks of code in lockstep

A block of code is the one thing on a line that goes on below it. So the second run reads the same
block only where the second template is *closed* behind the body: what follows there does not cut a
line break in two. Even so the second run may go on with a block that ends with the body, if an
indented line follows. The first run is lost then: it has read a block and nothing else is left.
-/

namespace Pug

open Text Token Reader

/-- The line is blank or is not indented. -/
def Cursor.Flush (c : Cursor) : Prop :=
  c.atBlankLine = true ∨ c.rest.takeWhile isSpacing = []

namespace Cursor

variable {c : Cursor} {run rest : List Char}

/-- The line break in front, if it is not cut in two. -/
theorem lineBreak_eq {e : LineEnding} (hr : c.rest = e.chars ++ rest)
    (hn : e = .cr → rest.head? ≠ some '\n') : c.lineBreak = e.chars := by
  unfold lineBreak
  rw [hr]
  cases e with
  | lf => rfl
  | crlf => rfl
  | cr =>
    cases rest with
    | nil => rfl
    | cons x rest =>
      have hx : x ≠ '\n' := fun h ↦ hn rfl (by rw [h]; rfl)
      simp [LineEnding.chars, hx]

theorem nextLine_eq {offset : Nat} (e : LineEnding) (rest : List Char)
    (hn : e = .cr → rest.head? ≠ some '\n') :
    (⟨offset, e.chars ++ rest⟩ : Cursor).nextLine = ⟨offset + byteLength e.chars, rest⟩ := by
  rw [nextLine, lineBreak_eq rfl hn]
  exact Leads.past_eq ⟨rfl, rfl⟩

/-- No line break stands in front of another character. -/
theorem lineBreak_of_not {x : Char} (hr : c.rest = x :: rest) (hx : isBreak x = false) :
    c.lineBreak = [] := by
  have hne : x ≠ '\n' ∧ x ≠ '\r' := by simpa [isBreak] using hx
  unfold lineBreak
  rw [hr]
  simp [hne.1, hne.2]

/-- At a line break stands one of the endings. -/
theorem lineBreak_cases (c : Cursor) : c.lineBreak = [] ∨ ∃ e : LineEnding, c.lineBreak = e.chars := by
  unfold lineBreak
  split
  · exact .inr ⟨.crlf, rfl⟩
  · exact .inr ⟨.cr, rfl⟩
  · exact .inr ⟨.lf, rfl⟩
  · exact .inl rfl

/-- A line break and some spacing in front. -/
theorem prefix_iff {e : LineEnding} (hne : run ≠ []) (hs : ∀ x ∈ run, isSpacing x = true) :
    e.chars ++ run <+: c.rest ↔ c.lineBreak = e.chars ∧ run <+: c.nextLine.rest := by
  constructor
  · rintro ⟨others, ho⟩
    obtain ⟨x, xs, rfl⟩ := List.exists_cons_of_ne_nil hne
    have hb : c.lineBreak = e.chars := by
      have hr : c.rest = e.chars ++ x :: (xs ++ others) := by simpa using ho.symm
      refine lineBreak_eq hr fun _ hx ↦ ?_
      have hspacing := hs x (List.mem_cons_self ..)
      rw [Option.some.inj hx] at hspacing
      contradiction
    refine ⟨hb, others, ?_⟩
    have hl := c.leads_nextLine.1
    rw [← ho, hb, List.append_assoc] at hl
    exact List.append_cancel_left hl
  · rintro ⟨hb, others, ho⟩
    exact ⟨others, by rw [c.leads_nextLine.1, hb, ← ho, List.append_assoc]⟩

theorem past_append (c : Cursor) {v w : List Char} (h : v ++ w <+: c.rest) :
    c.past (v ++ w) = (c.past v).past w := by
  obtain ⟨others, ho⟩ := h
  have hl := (leads_past ho.symm).split
  rw [hl.2.past_eq]

/-- Behind spacing in front, the line is as blank as before. -/
theorem atBlankLine_past (hs : ∀ x ∈ run, isSpacing x = true) (hp : run <+: c.rest) :
    (c.past run).atBlankLine = c.atBlankLine := by
  obtain ⟨others, ho⟩ := hp
  have hbreak : ∀ x ∈ run, (!isBreak x) = true := fun x hx ↦ by
    rw [isBreak_of_isSpacing (hs x hx)]
    rfl
  rw [atBlankLine, atBlankLine, line, line, rest_past_append c run others ho.symm, ← ho, firstLine,
    firstLine, List.takeWhile_append_of_pos hbreak, List.all_append, List.all_eq_true.2 hs,
    Bool.true_and]

/-- On a blank line there is nothing behind the spacing. -/
theorem atLineEnd_skipSpacing (h : c.atBlankLine = true) : c.skipSpacing.atLineEnd = true := by
  rw [← atBlankLine_past (fun x hx ↦ List.mem_takeWhile_imp hx)
    (List.takeWhile_prefix isSpacing)] at h
  change c.skipSpacing.atBlankLine = true at h
  rw [atLineEnd]
  have hhead := List.head?_dropWhile_not isSpacing c.rest
  rw [← rest_skipWhile] at hhead
  rw [atBlankLine, line] at h
  cases hr : c.skipSpacing.rest with
  | nil => rfl
  | cons x rest =>
    rw [show (c.skipWhile isSpacing).rest = x :: rest from hr] at hhead
    rw [hr, firstLine, List.takeWhile_cons] at h
    by_contra hb
    rw [if_pos (by simpa using hb), List.all_cons, Bool.and_eq_true] at h
    simp [h.1] at hhead

/-- No block starts where the next line is blank or not indented. -/
theorem Flush.not_opens {e : LineEnding} (h : c.nextLine.Flush) (hne : run ≠ [])
    (hs : ∀ x ∈ run, isSpacing x = true) :
    ((e.chars ++ run).isPrefixOf c.rest && !(c.past (e.chars ++ run)).atBlankLine) = false := by
  rw [Bool.and_eq_false_iff, Bool.not_eq_false', or_iff_not_imp_left, Bool.not_eq_false,
    List.isPrefixOf_iff_prefix]
  intro hp
  obtain ⟨hb, hrun⟩ := (prefix_iff hne hs).1 hp
  rw [past_append c hp, ← hb]
  change (c.nextLine.past run).atBlankLine = true
  rw [atBlankLine_past hs hrun]
  refine h.resolve_right fun hnil ↦ hne ?_
  obtain ⟨others, ho⟩ := hrun
  rw [← ho, List.takeWhile_append_of_pos hs] at hnil
  exact (List.append_eq_nil_iff.1 hnil).1

/-- A line starts with the end of it where nothing but line breaks is left. -/
theorem atLineEnd_of_breaks (hb : ∀ x ∈ c.rest, isBreak x = true) : c.atLineEnd = true := by
  rw [atLineEnd]
  cases hr : c.rest with
  | nil => rfl
  | cons x rest => exact hb x (by rw [hr]; exact List.mem_cons_self ..)

/-- Behind line breaks nothing is indented. -/
theorem flush_of_breaks (hb : ∀ x ∈ c.rest, isBreak x = true) : c.Flush :=
  .inr (takeWhile_isSpacing_eq_nil (atLineEnd_of_breaks hb))

end Cursor

namespace Indent

variable {known known' : Option IndentUnit} {run : List Char}

/-- The unit that is known behind a line. -/
theorem level_snd (known : Option IndentUnit) (run : List Char) :
    (level known run).2 = learn known run := by
  unfold level
  split <;> simp_all

theorem level_nil (known : Option IndentUnit) : level known [] = (.ok 0, known) := by
  cases known <;> rfl

/-- Nothing more is learned from the same run. -/
theorem learn_learn (known : Option IndentUnit) (run : List Char) :
    learn (learn known run) run = learn known run := by
  unfold learn
  split <;> rfl

theorem learn_known (unit : IndentUnit) (run : List Char) : learn (some unit) run = some unit := by
  unfold learn
  split <;> rfl

/-- Of the unit that was known, a level depends on what is known then. -/
theorem level_eq (h : learn known run = learn known' run) : level known run = level known' run := by
  unfold level
  rw [h]

theorem marginOf_snd (known : Option IndentUnit) (n : Nat) (run : List Char) :
    (marginOf known n run).2 = learn known run := by
  unfold marginOf
  split <;> simp_all

theorem marginOf_eq (h : learn known run = learn known' run) (n : Nat) :
    marginOf known n run = marginOf known' n run := by
  unfold marginOf
  rw [h]

theorem marginOf_nil (known : Option IndentUnit) (n : Nat) :
    marginOf known n [] = (none, known) := by
  cases known <;> rfl

/-- What is known of the unit stays known whatever is learned. -/
def Learns (Known : Option IndentUnit → Prop) : Prop :=
  ∀ known run, Known known → run ≠ [] → (∀ x ∈ run, isSpacing x = true) → Known (learn known run)

/-- A unit that is known stays known. -/
theorem learns_known (unit : IndentUnit) : Learns (· = some unit) := by
  rintro _ run rfl - -
  exact learn_known unit run

end Indent

/-- A line break and the indentation of the lines of a block. -/
def Code.IsBlockBreak (lineBreak : List Char) : Prop :=
  ∃ (e : LineEnding) (run : List Char), lineBreak = e.chars ++ run ∧ run ≠ [] ∧
    ∀ x ∈ run, isSpacing x = true

theorem Code.blockBreak_makes {σ : Type} (level : Nat) (s : ReadState σ) :
    (blockBreak? level).Ensures s (fun r _ ↦ ∀ lineBreak ∈ r, IsBlockBreak lineBreak)
      fun _ _ ↦ True := by
  unfold blockBreak?
  simp only [ensures_bind, ensures_get]
  split
  · rintro _ ⟨⟩
  · rename_i hc
    obtain ⟨e, he⟩ := s.cursor.lineBreak_cases.resolve_left fun h ↦ hc (by rw [h]; rfl)
    simp only [ensures_bind, ensures_set]
    split
    · rename_i n hlevel
      rw [ensures_pure]
      split
      · rename_i hn
        rintro _ ⟨⟩
        rw [he]
        refine ⟨e, _, rfl, fun hnil ↦ ?_, fun x hx ↦ List.mem_takeWhile_imp hx⟩
        rw [hnil, Indent.level_nil] at hlevel
        cases hlevel
        omega
      · rintro _ ⟨⟩
    · rintro _ ⟨⟩

namespace Link

variable {σ₁ σ₂ E₁ E₂ : Type} {L : Link σ₁ σ₂ E₁ E₂} {g₁ : Setup σ₁ E₁} {g₂ : Setup σ₂ E₂}
variable {c d : Cursor} {s : ReadState σ₁} {u : ReadState σ₂}

/-- The first run knows a unit that the second does not learn. -/
def Parted (L : Link σ₁ σ₂ E₁ E₂) (t : ReadState σ₁) : Prop :=
  ∃ unit ∈ t.unit, L.Parts unit

/-- Nothing but line breaks is left for the first run, and in the second template a line follows that
may belong to a block of code. -/
structure Severed (L : Link σ₁ σ₂ E₁ E₂) (t : ReadState σ₁) : Prop where
  breaks : ∀ x ∈ t.cursor.rest, isBreak x = true
  indented : ∃ offset, ¬(⟨offset, L.ends₂⟩ : Cursor).nextLine.Flush

theorem Severed.later {t t' : ReadState σ₁} (h : L.Severed t)
    (hr : t'.cursor.rest <:+ t.cursor.rest) : L.Severed t' :=
  ⟨fun x hx ↦ h.breaks x (hr.subset hx), h.indented⟩

/-- Behind line breaks alone, no line follows. -/
theorem flush_nextLine_of_breaks {ends : List Char} (h : ∀ x ∈ ends, isBreak x = true) (n : Nat) :
    (⟨n, ends⟩ : Cursor).nextLine.Flush := by
  refine Cursor.flush_of_breaks fun x hx ↦ h x ?_
  rw [show ends = _ from (Cursor.leads_nextLine ⟨n, ends⟩).1]
  exact List.mem_append_right _ hx

/-- Where a line follows in the second template, all failures are excused. -/
theorem Severed.lenient {t : ReadState σ₁} (h : L.Severed t) : L.Lenient := by
  obtain ⟨offset, hindented⟩ := h.indented
  exact L.breaks_or_lenient.resolve_left fun hb ↦ hindented (flush_nextLine_of_breaks hb offset)

/-- Behind the body the first template has the rest of a line break at most, and the second template
does not complete that. Where the first run learns a unit, so does the second. -/
structure Closed (L : Link σ₁ σ₂ E₁ E₂) : Prop where
  ends₁ : L.ends₁ = [] ∨ ∃ e : LineEnding, L.ends₁ = e.chars
  ends₂ : L.ends₂ = [] → L.ends₁ = []
  whole₁ : L.body.getLast? = some '\r' → L.ends₁.head? ≠ some '\n'
  whole₂ : (L.ending.write L.body).getLast? = some '\r' → L.ends₂.head? ≠ some '\n'
  learns : ∀ {a b run}, L.units a b → run ≠ [] → (∀ x ∈ run, isSpacing x = true) →
    (∃ unit ∈ Indent.learn a run, L.Parts unit) ∨
      Indent.learn b run = Indent.learn a run ∧ L.units (Indent.learn a run) (Indent.learn b run)

/-- Both runs know the same of a line with this run, and of those below it. -/
structure Agree (L : Link σ₁ σ₂ E₁ E₂) (run : List Char) (a b : Option IndentUnit) : Prop where
  units : L.units (Indent.learn a run) (Indent.learn b run)
  level : (Indent.level b run).1 = (Indent.level a run).1
  margin : ∀ n, (Indent.marginOf b n run).1 = (Indent.marginOf a n run).1

/-- Behind a line both runs know the same, or the first has learned a unit that the second does
not. -/
theorem Closed.learn (hL : L.Closed) {a b : Option IndentUnit} (h : L.units a b) {run : List Char}
    (hspacing : ∀ x ∈ run, isSpacing x = true) :
    (∃ unit ∈ Indent.learn a run, L.Parts unit) ∨ L.Agree run a b := by
  by_cases hrun : run = []
  · subst hrun
    refine .inr ⟨h, ?_, fun n ↦ ?_⟩
    · rw [Indent.level_nil, Indent.level_nil]
    · rw [Indent.marginOf_nil, Indent.marginOf_nil]
  · refine (hL.learns h hrun hspacing).imp_right fun ⟨heq, hu⟩ ↦ ⟨hu, ?_, fun n ↦ ?_⟩
    · rw [Indent.level_eq heq]
    · rw [Indent.marginOf_eq heq]

/-- A text of the body has no returns, unless it is read as it is. -/
theorem Words.feeds {w : List Char} (h : L.Words w c d) : L.ending = .lf ∨ '\r' ∉ w := by
  obtain ⟨before, after, hbody, -, -⟩ := h
  refine L.feeds.imp_right (mt fun hm ↦ ?_)
  rw [hbody]
  exact List.mem_append_right _ (List.mem_append_left _ hm)

/-- Behind a return the body ends, or its next character is in front. -/
theorem head?_append_ne {before after ends body : List Char} (hbody : body = before ++ after)
    (hwhole : body.getLast? = some '\r' → ends.head? ≠ some '\n')
    (hr : before.getLast? = some '\r') (hn : after.head? ≠ some '\n') :
    (after ++ ends).head? ≠ some '\n' := by
  cases after with
  | nil =>
    rw [List.append_nil] at hbody
    exact hwhole (hbody ▸ hr)
  | cons x after => exact hn

/-- Where one line break is written otherwise, so is the other, unless the body ends there. -/
theorem Places.lineBreak (hL : L.Closed) (h : L.Places c d) :
    (c = ⟨byteLength L.body, L.ends₁⟩ ∧ d = ⟨L.offset (byteLength L.body), L.ends₂⟩) ∨
      L.Words c.lineBreak c d ∧ d.lineBreak = L.ending.write c.lineBreak := by
  obtain ⟨before, after, hbody, hc, hd⟩ := id h
  rw [List.nil_append] at hbody
  -- The line break that stands in front in both templates.
  have hwords : ∀ w others, after = w ++ others → c.lineBreak = w →
      d.lineBreak = L.ending.write w →
        L.Words c.lineBreak c d ∧ d.lineBreak = L.ending.write c.lineBreak := by
    rintro w others rfl hw hw'
    rw [hw, hw']
    exact ⟨⟨before, others, hbody, by simpa using hc, by simpa using hd⟩, rfl⟩
  have hr : c.rest = after ++ L.ends₁ := by rw [hc]; rfl
  have hr' : d.rest = L.ending.write after ++ L.ends₂ := by rw [hd]; rfl
  cases after with
  | nil =>
    rw [List.append_nil] at hbody
    subst hbody
    exact .inl ⟨hc, hd⟩
  | cons x after =>
    right
    by_cases hn : x = '\n'
    · subst hn
      rw [LineEnding.write_cons_feed, List.append_assoc] at hr'
      refine hwords ['\n'] after rfl (Cursor.lineBreak_eq (e := .lf) hr nofun) ?_
      rw [LineEnding.write_cons_feed, LineEnding.write_nil, List.append_nil]
      refine Cursor.lineBreak_eq hr' fun hcr ↦ ?_
      have hsplit : L.ending.write L.body = L.ending.write (before ++ ['\n']) ++ L.ending.write after := by
        rw [hbody, ← LineEnding.write_append, List.append_assoc]
        rfl
      refine head?_append_ne hsplit hL.whole₂ ?_ (LineEnding.head?_write_ne (by rw [hcr]; nofun))
      rw [hcr, LineEnding.write_append]
      exact List.getLast?_concat
    · by_cases hx : x = '\r'
      · subst hx
        have hlf : L.ending = .lf := L.feeds.resolve_right fun hno ↦ hno (by simp [hbody])
        rw [hlf, LineEnding.write_lf] at hr'
        have hsplit : L.body = (before ++ ['\r']) ++ after := by simp [hbody]
        have hwhole₂ := hL.whole₂
        rw [hlf, LineEnding.write_lf] at hwhole₂
        rw [hlf] at hwords ⊢
        by_cases hfeed : after.head? = some '\n'
        · obtain ⟨others, rfl⟩ := List.head?_eq_some_iff.1 hfeed
          exact hwords ['\r', '\n'] others rfl (Cursor.lineBreak_eq (e := .crlf) hr nofun)
            (Cursor.lineBreak_eq (e := .crlf) hr' nofun)
        · have hlast : (before ++ ['\r']).getLast? = some '\r' := List.getLast?_concat
          exact hwords ['\r'] after rfl
            (Cursor.lineBreak_eq (e := .cr) hr fun _ ↦ head?_append_ne hsplit hL.whole₁ hlast hfeed)
            (Cursor.lineBreak_eq (e := .cr) hr' fun _ ↦ head?_append_ne hsplit hwhole₂ hlast hfeed)
      · have hb : isBreak x = false := by simp [isBreak, hn, hx]
        rw [LineEnding.write_cons_of_ne hn] at hr'
        exact hwords [] _ rfl (Cursor.lineBreak_of_not hr hb) (Cursor.lineBreak_of_not hr' hb)

/-- The line break and the indentation of a block's lines, where it can be written otherwise. -/
structure BlockBreak (L : Link σ₁ σ₂ E₁ E₂) (lineBreak : List Char) : Prop where
  isBlockBreak : Code.IsBlockBreak lineBreak
  feeds : L.Feeds (.statement lineBreak)

/-- A line break that is written otherwise is a line break. -/
theorem exists_write_chars {ending e : LineEnding} (h : ending = .lf ∨ e = .lf) :
    ∃ e' : LineEnding, ending.write e.chars = e'.chars := by
  rcases h with rfl | rfl
  · exact ⟨e, LineEnding.write_lf _⟩
  · exact ⟨ending, by rw [LineEnding.chars, LineEnding.write_cons_feed]; simp⟩

theorem eq_lf_of_not_mem {e : LineEnding} (h : '\r' ∉ e.chars) : e = .lf := by
  cases e with
  | lf => rfl
  | cr => exact absurd (List.mem_cons_self ..) h
  | crlf => exact absurd (List.mem_cons_self ..) h

/-- Line breaks that are written alike are equal. -/
theorem write_eq_chars_iff {ending e : LineEnding} {w : List Char} (he : ending = .lf ∨ e = .lf)
    (hw : w = [] ∨ ∃ e' : LineEnding, w = e'.chars) (hf : ending = .lf ∨ '\r' ∉ w) :
    ending.write w = ending.write e.chars ↔ w = e.chars := by
  rcases he with rfl | rfl
  · rw [LineEnding.write_lf, LineEnding.write_lf]
  · rcases hf with rfl | hf
    · rw [LineEnding.write_lf, LineEnding.write_lf]
    · rcases hw with rfl | ⟨e', rfl⟩
      · rw [LineEnding.write_nil, eq_comm, LineEnding.write_eq_nil, eq_comm]
      · rw [eq_lf_of_not_mem hf]
        exact iff_of_true rfl rfl

/-- Behind the body the first template has no indented line. -/
theorem flush_nextLine (L : Link σ₁ σ₂ E₁ E₂) (n : Nat) :
    (⟨n, L.ends₁⟩ : Cursor).nextLine.Flush :=
  flush_nextLine_of_breaks L.breaks n

/-- Behind the body the second template has no indented line either, or the first run is lost. -/
theorem flush_or_severed {n : Nat} (hc : s.cursor = ⟨n, L.ends₁⟩) (m : Nat) :
    (⟨m, L.ends₂⟩ : Cursor).nextLine.Flush ∨ L.Severed s := by
  refine or_iff_not_imp_left.2 fun hflush ↦ ⟨?_, m, hflush⟩
  rw [hc]
  exact L.breaks

section Block

variable {lineBreak : List Char}

/-- A line of the block, which both runs enter or neither, unless the first run is lost. -/
theorem Places.opens (hL : L.Closed) (hc : s.cursor = c) (h : L.Places c d)
    (hb : L.BlockBreak lineBreak) :
    (lineBreak.isPrefixOf c.rest && !(c.past lineBreak).atBlankLine) = false ∧ L.Severed s ∨
    ((L.ending.write lineBreak).isPrefixOf d.rest &&
        !(d.past (L.ending.write lineBreak)).atBlankLine) =
      (lineBreak.isPrefixOf c.rest && !(c.past lineBreak).atBlankLine) ∧
    ((lineBreak.isPrefixOf c.rest && !(c.past lineBreak).atBlankLine) = true →
      L.Places (c.past lineBreak) (d.past (L.ending.write lineBreak))) := by
  obtain ⟨⟨e, run, rfl, hne, hs⟩, hf⟩ := hb
  have he : L.ending = .lf ∨ e = .lf := hf.imp_right fun hf ↦
    eq_lf_of_not_mem fun hm ↦ hf _ rfl (List.mem_append_left _ hm)
  obtain ⟨e', he'⟩ := exists_write_chars he
  have hunbroken : ∀ x ∈ run, isBreak x = false := fun x hx ↦ isBreak_of_isSpacing (hs x hx)
  rw [LineEnding.write_append, LineEnding.write_of_unbroken hunbroken]
  rcases h.lineBreak hL with ⟨rfl, rfl⟩ | ⟨hw, hd⟩
  · -- Where the body ends no line of a block follows in the first template.
    rw [(L.flush_nextLine _).not_opens hne hs]
    refine (flush_or_severed hc (L.offset (byteLength L.body))).symm.imp (⟨rfl, ·⟩) fun hflush ↦ ?_
    rw [he', hflush.not_opens hne hs]
    exact ⟨rfl, nofun⟩
  · right
    have hnext : L.Places c.nextLine d.nextLine := by
      rw [Cursor.nextLine, Cursor.nextLine, hd]
      exact hw.past
    have hrun : run <+: d.nextLine.rest ↔ run <+: c.nextLine.rest := by
      have := hnext.ask (q := run.isPrefixOf) fun _ hm ↦
        isPrefixOf_append hm (by simpa using hunbroken)
      rw [← List.isPrefixOf_iff_prefix, ← List.isPrefixOf_iff_prefix, this]
    have hfront : L.ending.write e.chars ++ run <+: d.rest ↔ e.chars ++ run <+: c.rest := by
      rw [he', Cursor.prefix_iff hne hs, Cursor.prefix_iff hne hs, hrun, ← he', hd,
        write_eq_chars_iff he c.lineBreak_cases hw.feeds]
    by_cases hp : e.chars ++ run <+: c.rest
    · obtain ⟨hbreak, others, ho⟩ := (Cursor.prefix_iff hne hs).1 hp
      have hinside := hnext.past ho.symm hunbroken
      have hc : c.past (e.chars ++ run) = c.nextLine.past run := by
        rw [Cursor.past_append c hp, Cursor.nextLine, hbreak]
      have hd' : d.past (L.ending.write e.chars ++ run) = d.nextLine.past run := by
        rw [Cursor.past_append d (hfront.2 hp), Cursor.nextLine, hd, hbreak]
      rw [List.isPrefixOf_iff_prefix.2 hp, List.isPrefixOf_iff_prefix.2 (hfront.2 hp), hc, hd',
        hinside.atBlankLine]
      exact ⟨rfl, fun _ ↦ hinside⟩
    · have hf : ∀ {w cs : List Char}, ¬w <+: cs → w.isPrefixOf cs = false := fun h ↦ by
        rwa [← List.isPrefixOf_iff_prefix, Bool.not_eq_true] at h
      rw [hf hp, hf (mt hfront.1 hp)]
      exact ⟨rfl, nofun⟩

theorem statement_rel (hg : L.Setups g₁ g₂) {lineBreak : List Char}
    (hf : L.Feeds (.statement lineBreak)) :
    L.Rel L.Tokens (Code.statement g₁ lineBreak)
      (Code.statement g₂ (L.ending.write lineBreak)) := by
  refine here_rel.bind fun c d h ↦ (hg.expression _ _ hf (.inr ⟨_, rfl⟩)).bind fun e f he ↦ ?_
  refine skipSpacing_rel.bind fun _ _ _ ↦ (eat_rel (by decide)).bind fun _ _ _ ↦ ?_
  obtain ⟨hf, c', d', hw, hc⟩ := id he
  have hd : d'.offset = f.span.start := by rw [hw.places.offset_eq, hc, hf]; rfl
  rw [← hc, ← hd]
  refine (placeAt_rel h hw.places).bind fun c' d' h' ↦ ?_
  exact (tokenFrom_rel h' _).bind fun a b hab ↦ .pure (tokens_withExpr hab he)

theorem codeNext_rel (hg : L.Setups g₁ g₂) (hf : L.Feeds (.statement lineBreak)) :
    L.Rel (L.ItemRel Eq) (Code.item.next g₁ lineBreak)
      (Code.item.next g₂ (L.ending.write lineBreak)) :=
  (statement_rel hg hf).bind fun _ _ hab ↦ skipSpacing_rel.bind fun _ _ _ ↦ .pure hab

theorem codeItem_rel (hg : L.Setups g₁ g₂) (hL : L.Closed) (hb : L.BlockBreak lineBreak) :
    L.RelUnless (fun r t ↦ (∃ as x, r = .last as x) ∧ L.Severed t) (L.ItemRel Eq)
      (Code.item g₁ lineBreak) (Code.item g₂ (L.ending.write lineBreak)) := by
  intro s u hs
  refine RunsUnless.here ?_
  dsimp only
  rcases hs.places.opens hL rfl hb with ⟨hends, hsevered⟩ | ⟨hopens, hinside⟩
  · refine .of_lost (hsevered.lenient.ensures fun r t hr ↦ ?_)
    rw [Cursor.atLineEnd_of_breaks hsevered.breaks, hends] at hr
    cases hr
    exact ⟨⟨[], (), rfl⟩, hsevered⟩
  · refine RelUnless.ite (by rw [hs.places.atLineEnd]) (fun _ ↦ .of_rel (codeNext_rel hg hb.feeds))
      (fun _ ↦ ?_) s u hs
    rw [hopens]
    refine .ite Iff.rfl (fun hc ↦ ?_) fun _ ↦ .pure ⟨tokenLists_nil, rfl⟩
    exact (moveTo_rel (hinside hc)).bind fun _ _ _ ↦ .of_rel (codeNext_rel hg hb.feeds)

/-- No block is found where the next line is blank or not indented. -/
theorem blockBreak_of_flush {σ : Type} {s : ReadState σ} (h : s.cursor.nextLine.Flush)
    (level : Nat) : Code.blockBreak? level s = .ok none s := by
  unfold Code.blockBreak?
  rw [bind_of_ok (show (get : Reader σ (ReadState σ)) s = .ok s s from rfl)]
  dsimp only
  split
  · rfl
  · rename_i hc
    have hrun : s.cursor.nextLine.rest.takeWhile isSpacing = [] := by
      refine h.resolve_left fun hblank ↦ hc ?_
      rw [Bool.or_eq_true]
      exact .inr (Cursor.atLineEnd_skipSpacing hblank)
    rw [hrun, Indent.level_nil]
    rfl

/-- A line break of the body and the spacing behind it can be written otherwise. -/
theorem Words.feeds_append {w run : List Char} (h : L.Words w c d)
    (hs : ∀ x ∈ run, isSpacing x = true) : L.Feeds (.statement (w ++ run)) := by
  refine h.feeds.imp_right ?_
  rintro hfeeds _ ⟨⟩ hm
  refine (List.mem_append.1 hm).elim hfeeds fun hm ↦ ?_
  exact absurd (hs _ hm) (by decide)

/-- Where no line break is found, there is none to write otherwise. -/
theorem feeds_of_mem_none (L : Link σ₁ σ₂ E₁ E₂) :
    ∀ lineBreak ∈ (none : Option (List Char)), L.Feeds (.statement lineBreak) := by
  simp

/-- Where the body ends, neither run finds a block, unless the first is lost. -/
theorem blockBreak_runs_of_end (hs : L.States s u) (level : Nat)
    (hc : s.cursor = ⟨byteLength L.body, L.ends₁⟩)
    (hd : u.cursor = ⟨L.offset (byteLength L.body), L.ends₂⟩) :
    L.RunsUnless (fun r t ↦ L.Parted t ∨ r = none ∧ L.Severed t) (Code.blockBreak? level) s
      (Code.blockBreak? level) u fun r t r' v ↦ (r' = r.map L.ending.write ∧
        ∀ lineBreak ∈ r, L.Feeds (.statement lineBreak)) ∧ L.States t v := by
  have hflush₁ := L.flush_nextLine (byteLength L.body)
  rw [← hc] at hflush₁
  unfold RunsUnless
  rw [blockBreak_of_flush hflush₁]
  refine (flush_or_severed hc (L.offset (byteLength L.body))).symm.imp (.inr ⟨rfl, ·⟩)
    fun hflush₂ ↦ ?_
  rw [← hd] at hflush₂
  exact ⟨none, u, blockBreak_of_flush hflush₂ level, ⟨rfl, L.feeds_of_mem_none⟩, hs⟩

/-- The lines of a block are found below the same line, with the same indentation. -/
theorem blockBreak_rel (hL : L.Closed) (level : Nat) :
    L.RelUnless (fun r t ↦ L.Parted t ∨ r = none ∧ L.Severed t)
      (fun r r' ↦ r' = r.map L.ending.write ∧ ∀ lineBreak ∈ r, L.Feeds (.statement lineBreak))
      (Code.blockBreak? level) (Code.blockBreak? level) := by
  intro s u hs
  rcases hs.places.lineBreak hL with ⟨hc, hd⟩ | ⟨hw, hd⟩
  · exact blockBreak_runs_of_end hs level hc hd
  · have hnext : L.Places s.cursor.nextLine u.cursor.nextLine := by
      rw [Cursor.nextLine, Cursor.nextLine, hd]
      exact hw.past
    have hrun : u.cursor.nextLine.rest.takeWhile isSpacing =
        s.cursor.nextLine.rest.takeWhile isSpacing :=
      hnext.ask (q := List.takeWhile isSpacing) fun _ hm ↦ takeWhile_append hm rfl rfl
    have hcontent : (u.cursor.nextLine.past (s.cursor.nextLine.rest.takeWhile isSpacing)).atLineEnd =
        (s.cursor.nextLine.past (s.cursor.nextLine.rest.takeWhile isSpacing)).atLineEnd := by
      have := hnext.skipSpacing.atLineEnd
      rwa [Cursor.skipSpacing, Cursor.skipSpacing, Cursor.skipWhile, Cursor.skipWhile, hrun] at this
    have hbreak : ∀ x ∈ s.cursor.nextLine.rest.takeWhile isSpacing, isSpacing x = true :=
      fun x hx ↦ List.mem_takeWhile_imp hx
    unfold Code.blockBreak?
    refine (get_runsTo s u).bind ?_
    rintro a t b v ⟨⟨rfl, rfl⟩, rfl, rfl⟩
    dsimp only
    rw [hrun, hcontent, hd, LineEnding.isEmpty_write]
    refine RelUnless.ite Iff.rfl (fun _ ↦ .pure ⟨rfl, L.feeds_of_mem_none⟩) (fun hc ↦ ?_) t v hs
    generalize t.cursor.nextLine.rest.takeWhile isSpacing = run at *
    have hlearn := hL.learn hs.units hbreak
    have hunit := Indent.level_snd t.unit run
    have hunit' := Indent.level_snd v.unit run
    cases hlevel : Indent.level t.unit run with
    | mk indent unit =>
      cases hlevel' : Indent.level v.unit run with
      | mk indent' unit' =>
        rw [hlevel] at hunit
        rw [hlevel'] at hunit'
        rw [← hunit] at hlearn
        rcases hlearn with ⟨known, hknown, hparts⟩ | ⟨hunits, hindent, -⟩
        · have hlost : L.Lenient := L.excused_of_parts known hparts
          refine fun _ _ _ ↦ RunsUnless.of_lost (hlost.ensures fun r w hr ↦ ?_)
          obtain ⟨⟨⟩, w', hset, hr⟩ := bind_eq_ok.1 hr
          cases hset
          cases indent <;> cases hr <;> exact .inl ⟨known, hknown, hparts⟩
        · rw [← hunit, ← hunit'] at hunits
          rw [hlevel, hlevel'] at hindent
          subst hindent
          refine (set_rel ?_).bind fun _ _ _ ↦ ?_
          · exact ⟨hs.places, hs.parsers, hunits⟩
          cases indent' with
          | error misfit => exact .pure ⟨rfl, L.feeds_of_mem_none⟩
          | ok n =>
            refine .pure ?_
            by_cases hn : n = level + 1
            · have hunbroken : ∀ x ∈ run, isBreak x = false :=
                fun x hx ↦ isBreak_of_isSpacing (hbreak x hx)
              rw [if_pos hn, if_pos hn, Option.map_some, LineEnding.write_append,
                LineEnding.write_of_unbroken hunbroken]
              exact ⟨rfl, fun _ hr ↦ Option.some.inj hr ▸ hw.feeds_append hbreak⟩
            · rw [if_neg hn, if_neg hn]
              exact ⟨rfl, L.feeds_of_mem_none⟩

theorem closed_beside {σ E : Type} {source : List Char} {Known : Option IndentUnit → Prop}
    (h : Indent.Learns Known) : (beside σ E source Known).Closed where
  ends₁ := .inl rfl
  ends₂ _ := rfl
  whole₁ _ := nofun
  whole₂ _ := nofun
  learns := by
    rintro known _ run ⟨rfl, hknown⟩ hrun hspacing
    exact .inr ⟨rfl, rfl, h _ run hknown hrun hspacing⟩

/-- A run beside itself is never lost. -/
theorem not_severed_beside {σ E : Type} {source : List Char} {Known : Option IndentUnit → Prop}
    {t : ReadState σ} : ¬(beside σ E source Known).Severed t := by
  rintro ⟨-, offset, hindented⟩
  exact hindented (Cursor.flush_of_breaks nofun)

/-- What is known of the unit stays known over the lines of a block. -/
theorem items_known {σ E : Type} {g : Setup σ E} {Known : Option IndentUnit → Prop}
    (hk : Indent.Learns Known) (hb : Code.IsBlockBreak lineBreak) {s t : ReadState σ}
    {r : List (Token E) × Unit} (hs : Known s.unit)
    (h : gather (Code.item g lineBreak) g.rounds s = .ok r t) : Known t.unit := by
  refine known_of_beside (E := E) (fun source hstates ↦ ?_) hs h
  have hitem := codeItem_rel (setups_beside g) (closed_beside hk)
    (L := beside σ E source Known) ⟨hb, .inl rfl⟩
  rw [show (beside σ E source Known).ending = .lf from rfl, LineEnding.write_lf] at hitem
  exact ⟨_, _, ((setups_beside g).gather_relUnless hitem s s hstates).mono_lost
    (fun _ _ ↦ not_severed_beside) fun _ _ _ _ ⟨_, ht⟩ ↦ ht.units.2⟩

theorem block_rel (hg : L.Setups g₁ g₂) (hL : L.Closed) (level : Nat) {a : Token E₁} {b : Token E₂}
    (h : L.Tokens a b) :
    L.RelUnless (fun _ t ↦ L.Parted t ∨ L.Severed t) L.Tokens (Code.block g₁ level a)
      (Code.block g₂ level b) := by
  intro s u hs
  have hbreak := (blockBreak_rel hL level s u hs).of_ensures (Code.blockBreak_makes level s)
  refine hbreak.bind_lost ?_ ?_
  · rintro r t _ v ⟨hr, ⟨rfl, hf⟩, ht⟩
    cases r with
    | none => exact RelUnless.pure h t v ht
    | some lineBreak =>
      have hitem := codeItem_rel hg hL ⟨hr _ rfl, hf _ rfl⟩
      refine (hg.gather_relUnless hitem).bind_lost (fun _ _ hr ↦ ?_) (fun _ _ hsevered ↦ ?_) t v ht
      · exact .pure (tokens_withChildren h hr.1)
      · exact (ensures_pure _).2 (.inr hsevered)
  · rintro r t ⟨⟨unit, hunit, hparts⟩ | ⟨rfl, hsevered⟩, hr⟩
    · have hlost : L.Lenient := L.excused_of_parts unit hparts
      refine hlost.ensures fun a' t' hread ↦ .inl ?_
      cases r with
      | none =>
        cases hread
        exact ⟨unit, hunit, hparts⟩
      | some lineBreak =>
        obtain ⟨r, w, hitems, hread⟩ := bind_eq_ok.1 hread
        cases hread
        exact ⟨unit, items_known (Indent.learns_known unit) (hr _ rfl) hunit hitems, hparts⟩
    · exact .inr hsevered

end Block

end Link

end Pug

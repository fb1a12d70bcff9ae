import Pug.Proofs.Layout.Course
import Pug.Proofs.Lockstep.Checked

/-!
# Templates one behind the other

Behind a line break a template starts afresh. A template that can be read alone starts without
indentation, and a line without indentation closes all levels and any block of text; a block of code
and an expression end at the line break as they do at the end of the template. What is left over is
the unit of indentation, so two templates can be joined if they do not differ in it.

The lines of the first template are read beside those of the joined one. Then the lines of the second
are read beside what is left of it, behind the outline of the first.
-/

namespace Pug

open Text Token Reader Outline
open ExpressionParser (loose)

variable {σ E : Type}

/-- The unit of indentation that is known when a template has been read. -/
def inferredUnit (parser : ExpressionParser σ E) (maxDepth : Nat) (source : List Char) (s : σ) :
    Option IndentUnit :=
  (endState (readTemplate parser maxDepth source s)).unit

/-- A line that is at no level is not indented. -/
theorem Indent.eq_nil_of_level {known : Option IndentUnit} {run : List Char}
    (h : (level known run).1 = .ok 0) : run = [] := by
  by_contra hne
  have hempty : run.isEmpty = false := List.isEmpty_eq_false_iff.2 hne
  unfold level learn at h
  rw [hempty, if_neg (by decide)] at h
  dsimp only at h
  rw [if_neg (by decide), units] at h
  split at h
  · contradiction
  · split at h
    · rename_i hmod
      have hdiv := Nat.div_add_mod run.length (known.getD (IndentUnit.ofRun run)).width
      rw [hmod, Except.ok.inj h, Nat.mul_zero] at hdiv
      exact hne (List.eq_nil_of_length_eq_zero hdiv.symm)
    · contradiction

/-- A line with nothing but spacing is blank. -/
theorem Cursor.flush_of_atLineEnd {c : Cursor} (h : c.skipSpacing.atLineEnd = true) : c.Flush := by
  left
  rw [← atBlankLine_past (fun x hx ↦ List.mem_takeWhile_imp hx)
    (List.takeWhile_prefix isSpacing)]
  change c.skipSpacing.atBlankLine = true
  rw [atBlankLine, line]
  unfold atLineEnd at h
  cases hr : c.skipSpacing.rest with
  | nil => rfl
  | cons x rest =>
    rw [hr] at h
    have hx : isBreak x = true := h
    rw [firstLine, List.takeWhile_cons, if_neg (by rw [hx]; decide)]
    rfl

/-- An outline in which no level is open. -/
def Outline.closed (o : Outline E) : Outline E :=
  { o with openLines := [] }

namespace Page

variable {g : Setup σ E} {n : Nat} {o : Outline E} {p q : Page E} {s t : ReadState σ}
variable {verbatim : Option Verbatim}

theorem checkLevel_closed (o : Outline E) : o.closed.checkLevel 0 = o.checkLevel 0 := by
  simp [closed, checkLevel]

theorem openLine_closed (o : Outline E) (line : Token E) :
    o.closed.openLine 0 line = o.openLine 0 line := by
  unfold openLine
  rw [checkLevel_closed]
  simp [closed, add, parentAt]

theorem chain_closed (o : Outline E) : chain g 0 o.closed = chain g 0 o := by
  unfold chain
  simp only [openLine_closed]
  rfl

/-- A line without indentation reads the same whatever is open. -/
theorem line_closed (h : s.Written) (hs : s.spacing = []) :
    line g ⟨o.closed, none⟩ s = line g ⟨o, verbatim⟩ s := by
  have htakes (p : Page E) : p.takes s = none := by
    rw [takes, hs]
    simp [Indent.marginOf_nil]
  have hlevel := level_eq_ok s.cursor (Indent.level_nil s.unit)
  rw [line_of_takes_none h (htakes _), line_of_takes_none h (htakes _), hs]
  unfold markupLine
  refine (bind_of_ok hlevel).trans (.trans ?_ (bind_of_ok hlevel).symm)
  dsimp only
  rw [checkLevel_closed, chain_closed]

/-- Where no level is open, a line that is not blank is not indented. -/
theorem spacing_of_step (h : Step g ⟨o.closed, none⟩ s q t) (hs : s.Written) : s.spacing = [] := by
  cases h with
  | blank hblank =>
    rw [ReadState.Written, hblank] at hs
    contradiction
  | text _ htakes => contradiction
  | @markup level _ _ _ _ _ _ _ _ hlevel hopens =>
    have hcheck : o.closed.checkLevel level = none := hopens.outline.2.2.2.2
    have hzero : level = 0 := by
      unfold checkLevel at hcheck
      split at hcheck
      · contradiction
      · split at hcheck
        · contradiction
        · rename_i hopen
          exact Nat.eq_zero_of_not_pos hopen
    exact Indent.eq_nil_of_level (hzero ▸ hlevel)

/-- The lines below read the same whatever is open, if they read at all where nothing is. -/
theorem lines_closed (h : lines g n ⟨o.closed, none⟩ s = .ok q t) (verbatim : Option Verbatim) :
    ∃ q' : Page E, lines g n ⟨o, verbatim⟩ s = .ok q' t ∧
      q'.outline.entries = q.outline.entries := by
  induction n generalizing s with
  | zero => contradiction
  | succ n ih =>
    by_cases hend : s.cursor.rest = []
    · rw [lines_at_end hend] at h
      cases h
      exact ⟨_, lines_at_end hend, rfl⟩
    · rw [lines_before_end hend] at h ⊢
      obtain ⟨q₁, t₁, hline, hrest⟩ := bind_eq_ok.1 h
      cases hc : s.cursor.skipSpacing.atLineEnd with
      | true =>
        rw [line_of_blank hc] at hline
        cases hline
        obtain ⟨q', hq', hentries⟩ := ih hrest
        exact ⟨q', (bind_of_ok (line_of_blank hc)).trans hq', hentries⟩
      | false =>
        have hspacing := spacing_of_step (step_of_line hline) hc
        rw [line_closed hc hspacing] at hline
        exact ⟨q, (bind_of_ok hline).trans hrest, rfl⟩

/-- A template that can be read starts with a line that is blank or not indented. -/
theorem flush_of_lines (h : lines g n ⟨o.closed, none⟩ s = .ok q t) : s.cursor.Flush := by
  by_cases hend : s.cursor.rest = []
  · exact Cursor.flush_of_breaks (by rw [hend]; nofun)
  · cases n with
    | zero => contradiction
    | succ n =>
      rw [lines_before_end hend] at h
      obtain ⟨q₁, t₁, hline, -⟩ := bind_eq_ok.1 h
      cases hc : s.cursor.skipSpacing.atLineEnd with
      | true => exact Cursor.flush_of_atLineEnd hc
      | false => exact .inr (spacing_of_step (step_of_line hline) hc)

end Page

namespace Link

variable {body after : List Char} {e : LineEnding} {known : Option IndentUnit}

theorem breaks_chars (e : LineEnding) : ∀ x ∈ e.chars, isBreak x = true :=
  fun _ ↦ LineEnding.isBreak_of_mem_chars

theorem followsLine_chars (e : LineEnding) (after : List Char) : FollowsLine (e.chars ++ after) := by
  obtain ⟨x, xs, hx, hb⟩ := e.exists_chars_eq_cons
  rw [hx]
  exact hb

theorem followsLine_nil : FollowsLine [] := rfl

theorem feeds_lf (body : List Char) : LineEnding.lf = .lf ∨ '\r' ∉ body :=
  .inl rfl

theorem moved_add (shift : Nat) (body : List Char) :
    ∀ before w after, body = before ++ (w ++ after) →
      (Recast.moved (E := Shape) shift).offset (byteLength before + byteLength w) =
        (Recast.moved (E := Shape) shift).offset (byteLength before) +
          byteLength ((Recast.moved (E := Shape) shift).ending.write w) :=
  fun before w _ _ ↦ Recast.offset_moved_add shift before w

/-- Two runs of the loose parser over a template, the second perhaps behind another template and
before another one. The second may know a unit from before; the runs part where the first learns
another unit. -/
def amid (shift : Nat) (body ends₁ ends₂ : List Char) (breaks : ∀ x ∈ ends₁, isBreak x = true)
    (followsLine : FollowsLine ends₂) (known : Option IndentUnit) : Link Unit Unit Shape Shape :=
  excusing (.moved shift) body ends₁ ends₂ breaks followsLine (feeds_lf body) (moved_add shift body)
    (fun _ _ ↦ True) (fun a b ↦ b = a.or known) (fun _ ↦ False) fun unit ↦ ∃ k ∈ known, k ≠ unit

/-- A template that ends with a line break, beside the same template with another one behind it. -/
def ahead (body : List Char) (e : LineEnding) (after : List Char) : Link Unit Unit Shape Shape :=
  amid 0 body e.chars (e.chars ++ after) (breaks_chars e) (followsLine_chars e after) none

/-- A template beside itself behind another one, after which a unit may be known. -/
def afterwards (shift : Nat) (body : List Char) (known : Option IndentUnit) :
    Link Unit Unit Shape Shape :=
  amid shift body [] [] isBreak_of_mem_nil followsLine_nil known

section Amid

variable {shift : Nat} {ends₁ ends₂ : List Char} {breaks : ∀ x ∈ ends₁, isBreak x = true}
variable {followsLine : FollowsLine ends₂}

theorem setups_amid (maxDepth : Nat) {n₁ n₂ : Nat} (hle : n₁ ≤ n₂) :
    (amid shift body ends₁ ends₂ breaks followsLine known).Setups ⟨loose, maxDepth, n₁⟩
      ⟨loose, maxDepth, n₂⟩ :=
  (answers_checked id (fun _ _ _ ↦ rfl) rfl rfl (fun _ _ ↦ trivial) fun _ ↦ trivial).setups
    (fun _ ↦ .inl) (fun _ ↦ .inl) rfl hle (.inl trivial)

/-- A unit that is learned is one that both runs know, or it parts them. -/
theorem learns_amid {a b : Option IndentUnit} {run : List Char}
    (h : (amid shift body ends₁ ends₂ breaks followsLine known).units a b) (hrun : run ≠ []) :
    (∃ unit ∈ Indent.learn a run, (amid shift body ends₁ ends₂ breaks followsLine known).Parts unit) ∨
      Indent.learn b run = Indent.learn a run ∧ (amid shift body ends₁ ends₂ breaks followsLine
        known).units (Indent.learn a run) (Indent.learn b run) := by
  have hlearn (a : Option IndentUnit) : Indent.learn a run = some (a.getD (.ofRun run)) := by
    rw [Indent.learn, List.isEmpty_eq_false_iff.2 hrun, if_neg (by decide)]
  obtain rfl : b = a.or known := h
  rw [hlearn, hlearn]
  cases a with
  | some unit => exact .inr ⟨rfl, rfl⟩
  | none =>
    cases known with
    | none => exact .inr ⟨rfl, rfl⟩
    | some k =>
      by_cases hk : k = .ofRun run
      · exact .inr ⟨congrArg some hk, congrArg some hk⟩
      · exact .inl ⟨_, rfl, k, rfl, hk⟩

end Amid

theorem ahead_closed (hwhole : body.getLast? = some '\r' → e.chars.head? ≠ some '\n') :
    (ahead body e after).Closed where
  ends₁ := .inr ⟨e, rfl⟩
  ends₂ := by
    obtain ⟨x, xs, hx, -⟩ := e.exists_chars_eq_cons
    simp [ahead, amid, excusing, hx]
  whole₁ := hwhole
  whole₂ h := by
    obtain ⟨x, xs, hx, -⟩ := e.exists_chars_eq_cons
    have hhead := hwhole (by rwa [show (ahead body e after).ending = .lf from rfl,
      LineEnding.write_lf] at h)
    rw [hx] at hhead
    change (e.chars ++ after).head? ≠ _
    rwa [hx]
  learns h hrun _ := learns_amid h hrun

theorem afterwards_closed (shift : Nat) (body : List Char) (known : Option IndentUnit) :
    (afterwards shift body known).Closed where
  ends₁ := .inl rfl
  ends₂ _ := rfl
  whole₁ _ := nofun
  whole₂ _ := nofun
  learns h hrun _ := learns_amid h hrun

section Runs

variable {maxDepth n N : Nat} {q : Page Shape} {s t u : ReadState Unit}

/-- Nothing is left out of a mixin, so the runs part over a unit only. -/
theorem parted_of_lost {shift : Nat} {o : Outline Shape}
    (h : (afterwards shift body known).Lost o t) : ∃ unit ∈ t.unit, ∃ k ∈ known, k ≠ unit := by
  rcases h with ⟨_, _, _, _, _, _, _, hrejected⟩ | hparted | ⟨⟨-, offset, hindented⟩, -⟩
  · exact hrejected.elim
  · exact hparted
  · exact absurd (Cursor.flush_of_breaks isBreak_of_mem_nil) hindented

/-- Beside the first template, the joined one is read up to where the second starts, if that does not
go on with a block of code of the first. -/
theorem lines_ahead (after : List Char)
    (hwhole : body.getLast? = some '\r' → e.chars.head? ≠ some '\n')
    (hends : (∀ offset, (⟨offset, e.chars ++ after⟩ : Cursor).nextLine.Flush) ∨
      ∀ line ∈ q.outline.tokens.getLast?, ¬line.SaysCode)
    (hN : (body ++ e.chars).length + 1 ≤ N)
    (h : readLines loose maxDepth (body ++ e.chars) () = .ok q t) :
    ∃ n v, n ≤ (body ++ e.chars).length ∧
      v.cursor = (⟨byteLength body, e.chars ++ after⟩ : Cursor).nextLine ∧ v.unit = t.unit ∧
      ∀ m, Page.lines ⟨loose, maxDepth, N⟩ (n + m) (.empty maxDepth)
          ⟨.start (body ++ (e.chars ++ after)), none, ()⟩ =
        Page.lines ⟨loose, maxDepth, N⟩ m ((ahead body e after).onto #[] q) v := by
  have hstart : (ahead body e after).Between ⟨.start (body ++ e.chars), none, ()⟩
      ⟨.start (body ++ (e.chars ++ after)), none, ()⟩ := by
    refine ⟨.inl ⟨[], body, rfl, rfl, ?_⟩, trivial, rfl⟩
    change _ = Cursor.mk 0 (LineEnding.lf.write body ++ (e.chars ++ after))
    rw [LineEnding.write_lf]
    rfl
  have hruns := lines_runs (L := ahead body e after) #[] (setups_amid maxDepth hN)
    (ahead_closed hwhole) hN (.inl trivial) (.empty maxDepth) hstart
  rw [onto_empty, show Page.lines _ _ _ _ = _ from h] at hruns
  dsimp only at hruns
  rcases hruns with (⟨_, _, _, _, _, _, _, hrejected⟩ | ⟨_, _, k, hk, -⟩ |
    ⟨⟨-, offset, hindented⟩, line, hline, hcode⟩) | ⟨n, v, hn, hv, hend, hlines⟩
  · exact hrejected.elim
  · contradiction
  · exact hends.elim (fun hflush ↦ absurd (hflush offset) hindented)
      fun hlast ↦ absurd hcode (hlast line hline)
  · refine ⟨n, v, Nat.le_of_lt_succ hn, ?_, ?_, hlines⟩
    · rcases hv.places with ⟨before, rest, -, hc, -⟩ | ⟨-, -, hd⟩
      · rw [hc] at hend
        obtain ⟨x, xs, hx, -⟩ := e.exists_chars_eq_cons
        have : (ahead body e after).ends₁ = [] :=
          (List.append_eq_nil_iff.1 (List.append_eq_nil_iff.1 hend).2).2
        rw [show (ahead body e after).ends₁ = e.chars from rfl, hx] at this
        contradiction
      · exact hd
    · have hunit : v.unit = t.unit.or none := hv.units
      rwa [Option.or_none] at hunit

/-- Beside the second template, the rest of the joined one is read to its end. -/
theorem lines_afterwards {shift m : Nat} (before : Array (Entry Shape))
    (hplaces : (afterwards shift body known).Places s.cursor u.cursor) (hs : s.unit = none)
    (hu : u.unit = known) (hbody : body.length + 1 ≤ N) (hm : n ≤ m)
    (h : Page.lines ⟨loose, maxDepth, body.length + 1⟩ n (.empty maxDepth) s = .ok q t)
    (hunits : ∀ unit ∈ t.unit, ∀ k ∈ known, k = unit) :
    ∃ v, Page.lines ⟨loose, maxDepth, N⟩ m ((afterwards shift body known).onto before
      (.empty maxDepth)) u = .ok ((afterwards shift body known).onto before q) v := by
  have hclosed := afterwards_closed shift body known
  have hruns := lines_ends (L := afterwards shift body known) before
    (setups_amid maxDepth hbody) hclosed rfl hm (.inl trivial) (.empty maxDepth)
    (s := s) (u := u) ⟨hplaces, trivial, by rw [hs, hu]; rfl⟩
  rw [h] at hruns
  dsimp only at hruns
  rcases hruns with hlost | ⟨v, hv, -⟩
  · obtain ⟨unit, hunit, k, hk, hne⟩ := parted_of_lost hlost
    exact absurd (hunits unit hunit k hk) hne
  · exact ⟨v, hv⟩

end Runs

end Link

/-- A text that ends with a break character ends with a line break that is whole. -/
theorem exists_ending {cs : List Char} (h : cs.getLast?.any isBreak = true) :
    ∃ (body : List Char) (e : LineEnding), cs = body ++ e.chars ∧
      (body.getLast? = some '\r' → e.chars.head? ≠ some '\n') := by
  induction cs using List.reverseRecOn with
  | nil => contradiction
  | append_singleton init c _ =>
    rw [List.getLast?_concat, Option.any_some, isBreak, Bool.or_eq_true, beq_iff_eq, beq_iff_eq] at h
    rcases h with rfl | rfl
    · by_cases hr : init.getLast? = some '\r'
      · obtain ⟨before, rfl⟩ := List.getLast?_eq_some_iff.1 hr
        exact ⟨before, .crlf, by simp [LineEnding.chars], fun _ ↦ by decide⟩
      · exact ⟨init, .lf, rfl, fun h ↦ absurd h hr⟩
    · exact ⟨init, .cr, rfl, fun _ ↦ by decide⟩

section Concat

variable {maxDepth : Nat} {source₁ source₂ : List Char} {root₁ root₂ : Token Shape}

/-- Where the second template starts in the joined one, or starts again behind a line feed that
belongs to the line break before it. -/
theorem exists_seam {q : Page Shape} {t : ReadState Unit} (e : LineEnding)
    (h : readLines loose maxDepth source₂ () = .ok q t) :
    ∃ c n, n ≤ source₂.length + 1 ∧ Place source₂ c ∧
      (∀ offset, (⟨offset, e.chars ++ source₂⟩ : Cursor).nextLine =
        ⟨c.offset + (offset + byteLength e.chars), c.rest⟩) ∧
      Page.lines ⟨loose, maxDepth, source₂.length + 1⟩ n (.empty maxDepth) ⟨c, none, ()⟩ = .ok q t := by
  by_cases hseam : e = .cr ∧ source₂.head? = some '\n'
  · obtain ⟨rfl, hhead⟩ := hseam
    obtain ⟨rest, rfl⟩ := List.head?_eq_some_iff.1 hhead
    have hblank : (Cursor.start ('\n' :: rest)).skipSpacing.atLineEnd = true := rfl
    refine ⟨⟨1, rest⟩, rest.length + 1, Nat.le_succ _, ⟨['\n'], rfl, rfl⟩, fun offset ↦ ?_, ?_⟩
    · refine (Cursor.nextLine_eq .crlf rest nofun).trans ?_
      refine congrArg (Cursor.mk · rest) ?_
      change offset + 2 = 1 + (offset + 1)
      omega
    · have hne : (⟨.start ('\n' :: rest), none, ()⟩ : ReadState Unit).cursor.rest ≠ [] :=
        List.cons_ne_nil '\n' rest
      exact (bind_of_ok (Page.line_of_blank hblank)).symm.trans
        ((Page.lines_before_end hne).symm.trans h)
  · refine ⟨.start source₂, source₂.length + 1, Nat.le_refl _, .start source₂, fun offset ↦ ?_, h⟩
    rw [Cursor.nextLine_eq e source₂ fun he hhead ↦ hseam ⟨he, hhead⟩]
    exact congrArg (Cursor.mk · source₂) (Nat.zero_add _).symm

theorem readLines_of_lex {root : Token Shape} {source : List Char}
    (h : lex loose maxDepth source () = .ok root) : ∃ q t,
      readLines loose maxDepth source () = .ok q t ∧ root = q.outline.finish ∧
        inferredUnit loose maxDepth source () = t.unit := by
  unfold lex at h
  unfold inferredUnit
  cases hr : readTemplate loose maxDepth source () with
  | error f t =>
    rw [hr] at h
    contradiction
  | ok root' t =>
    rw [hr] at h
    cases h
    obtain ⟨q, hlines, hroot⟩ := readTemplate_eq_ok.1 hr
    exact ⟨q, t, hlines, hroot, rfl⟩

/-- The lines of the joined template are those of the two, one behind the other. -/
theorem readLines_append {q₁ q₂ : Page Shape} {t₁ t₂ : ReadState Unit}
    (hne : source₁.getLast?.any isBreak = true)
    (h₁ : readLines loose maxDepth source₁ () = .ok q₁ t₁)
    (h₂ : readLines loose maxDepth source₂ () = .ok q₂ t₂)
    (hunits : ∀ unit ∈ t₂.unit, ∀ known ∈ t₁.unit, known = unit) :
    ∃ q t, readLines loose maxDepth (source₁ ++ source₂) () = .ok q t ∧
      q.outline.entries = (q₂.outline.onto (.moved (byteLength source₁))
        (q₁.outline.onto (.moved 0) #[]).entries).entries := by
  obtain ⟨body, e, rfl, hwhole⟩ := exists_ending hne
  obtain ⟨c, n₂, hn₂, hplace, hseam, hlines₂⟩ := exists_seam e h₂
  have hflush (offset : Nat) : (⟨offset, e.chars ++ source₂⟩ : Cursor).nextLine.Flush := by
    rw [hseam]
    exact Page.flush_of_lines (o := .empty maxDepth) hlines₂
  have hlength : ((body ++ e.chars) ++ source₂).length = (body ++ e.chars).length + source₂.length :=
    List.length_append
  obtain ⟨n₁, v, hn₁, hv, hunit, hlines₁⟩ :=
    Link.lines_ahead (N := ((body ++ e.chars) ++ source₂).length + 1) source₂ hwhole (.inl hflush)
      (by omega) h₁
  have hdepth : q₁.outline.maxDepth = maxDepth := Page.maxDepth_of_lines h₁
  have hplaces : (Link.afterwards (byteLength (body ++ e.chars)) source₂ t₁.unit).Places c v.cursor := by
    obtain ⟨before, hs, hc⟩ := hplace.exists_split
    refine ⟨before, c.rest, hs, ?_, ?_⟩
    · change c = ⟨byteLength before, c.rest ++ []⟩
      rw [List.append_nil, ← hc]
    · change v.cursor = ⟨byteLength before + byteLength (body ++ e.chars),
        LineEnding.lf.write c.rest ++ []⟩
      rw [hv, hseam, LineEnding.write_lf, List.append_nil, ← hc, byteLength_append]
  obtain ⟨u, hu⟩ := Link.lines_afterwards (N := ((body ++ e.chars) ++ source₂).length + 1)
    (m := ((body ++ e.chars) ++ source₂).length + 1 - n₁)
    ((Link.ahead body e source₂).onto #[] q₁).outline.entries hplaces rfl hunit (by omega) (by omega)
    hlines₂ hunits
  have hstart : (Link.afterwards (byteLength (body ++ e.chars)) source₂ t₁.unit).onto
      ((Link.ahead body e source₂).onto #[] q₁).outline.entries (.empty maxDepth) =
        ⟨((Link.ahead body e source₂).onto #[] q₁).outline.closed, none⟩ := by
    simp [Link.onto, Page.empty, Outline.onto, Outline.empty, Outline.closed, hdepth]
  rw [hstart] at hu
  obtain ⟨q, hq, hentries⟩ := Page.lines_closed hu ((Link.ahead body e source₂).onto #[] q₁).verbatim
  refine ⟨q, u, ?_, hentries⟩
  have hjoined := (hlines₁ (((body ++ e.chars) ++ source₂).length + 1 - n₁)).trans hq
  rw [← List.append_assoc, Nat.add_sub_cancel' (by omega)] at hjoined
  exact hjoined

/-- The trees of two templates come one behind the other, if their lines do. -/
theorem lex_of_readLines {q₁ q₂ : Page Shape} {t₁ t₂ : ReadState Unit}
    (hends : source₁.getLast?.any isBreak = true)
    (h₁ : readLines loose maxDepth source₁ () = .ok q₁ t₁)
    (h₂ : readLines loose maxDepth source₂ () = .ok q₂ t₂)
    (hunits : ∀ unit ∈ t₂.unit, ∀ known ∈ t₁.unit, known = unit) :
    lex loose maxDepth (source₁ ++ source₂) () = .ok ⟨.root, "", ⟨0, 0⟩, none,
      q₁.outline.finish.children ++
        shiftAll (byteLength source₁) q₂.outline.finish.children⟩ := by
  obtain ⟨q, t, hlines, hentries⟩ := readLines_append hends h₁ h₂ hunits
  have hchildren := finish_onto (.moved (byteLength source₁)) _ q.outline q₂.outline hentries
  rw [Link.finish_recast _ rfl, Recast.token_moved, shift_zero, Recast.tokens_moved] at hchildren
  rw [lex, readTemplate_eq_ok.2 ⟨q, hlines, rfl⟩, ← hchildren]
  rfl

/-- Two templates that can be read alone, the first of which ends with a line break or is empty, can
be read one behind the other, unless they are indented by different units. The trees of the second
come behind those of the first, moved by its length: nothing that is open in the first is open in the
second. -/
theorem lex_append (h₁ : lex loose maxDepth source₁ () = .ok root₁)
    (h₂ : lex loose maxDepth source₂ () = .ok root₂)
    (hends : source₁ = [] ∨ source₁.getLast?.any isBreak = true)
    (hunits : inferredUnit loose maxDepth source₁ () = inferredUnit loose maxDepth source₂ () ∨
      inferredUnit loose maxDepth source₁ () = none ∨
        inferredUnit loose maxDepth source₂ () = none) :
    lex loose maxDepth (source₁ ++ source₂) () = .ok ⟨.root, "", ⟨0, 0⟩, none,
      root₁.children ++ shiftAll (byteLength source₁) root₂.children⟩ := by
  obtain ⟨q₁, t₁, hlines₁, rfl, hunit₁⟩ := readLines_of_lex h₁
  obtain ⟨q₂, t₂, hlines₂, rfl, hunit₂⟩ := readLines_of_lex h₂
  rcases hends with rfl | hends
  · have hempty : lex loose maxDepth [] () = .ok (Outline.empty maxDepth).finish := rfl
    rw [hempty] at h₁
    rw [← Except.ok.inj h₁, List.nil_append, h₂, byteLength_nil, shiftAll_zero]
    rfl
  · rw [hunit₁, hunit₂] at hunits
    exact lex_of_readLines hends hlines₁ hlines₂ (by rcases hunits with h | h | h <;> simp_all)

/-- The text of the first template ends at a return, which the line feed of the second completes. -/
theorem lex_append_seam : ∃ root₁ root₂,
    lex loose 32 "ul.\n  item\r".toList () = .ok root₁ ∧
      lex loose 32 "\n- if (x)\np= x\n".toList () = .ok root₂ ∧
      lex loose 32 ("ul.\n  item\r".toList ++ "\n- if (x)\np= x\n".toList) () =
        .ok ⟨.root, "", ⟨0, 0⟩, none, root₁.children ++ shiftAll 11 root₂.children⟩ := by
  obtain ⟨root₁, h₁, -⟩ := exists_of_any (r := lex loose 32 "ul.\n  item\r".toList ())
    (p := fun _ ↦ true) (by decide +kernel)
  obtain ⟨root₂, h₂, -⟩ := exists_of_any (r := lex loose 32 "\n- if (x)\np= x\n".toList ())
    (p := fun _ ↦ true) (by decide +kernel)
  exact ⟨root₁, root₂, h₁, h₂,
    lex_append h₁ h₂ (.inr (by decide)) (.inr (.inr (by decide +kernel)))⟩

end Concat

end Pug

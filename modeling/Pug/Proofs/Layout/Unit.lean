import Pug.Proofs.Layout.Course

/-!
# The unit of indentation

The unit is asked for in two ways: for the level of a run, and for the margin of a level in front of
it. Either way it is learned from the first run that is not empty, and stays. So all lines of a template
that are opened at a level are indented by as many copies of one unit, and a line that is not is an
error.
-/

namespace Pug

open Text Token Reader

namespace IndentUnit

variable {unit : IndentUnit} {run : List Char} {k n : Nat}

/-- The unit of a run: one tab, or all the spaces that it starts with. -/
inductive Fixed : List Char → IndentUnit → Prop where
  | tab (rest : List Char) : Fixed ('\t' :: rest) .tab
  | spaces (n : Nat) {rest : List Char} (h : rest.head? ≠ some ' ') :
    Fixed (List.replicate (n + 1) ' ' ++ rest) (.spaces (n + 1))

theorem Fixed.width_pos (h : Fixed run unit) : 0 < unit.width := by
  cases h with
  | tab => exact Nat.one_pos
  | spaces n => exact Nat.succ_pos n

/-- A run of spacing that is not empty fixes a unit. -/
theorem fixed_ofRun (hrun : run ≠ []) (hs : ∀ c ∈ run, isSpacing c = true) :
    Fixed run (ofRun run) := by
  obtain ⟨c, rest, rfl⟩ := List.exists_cons_of_ne_nil hrun
  have hc := hs c (List.mem_cons_self ..)
  simp only [isSpacing, Bool.or_eq_true, beq_iff_eq] at hc
  rcases hc with rfl | rfl
  · -- The spaces are those up to the first other character.
    have hspaces : (' ' :: rest).takeWhile (· == ' ') =
        List.replicate ((rest.takeWhile (· == ' ')).length + 1) ' ' :=
      List.eq_replicate_iff.2
        ⟨rfl, fun c hc ↦ beq_iff_eq.1 (List.mem_takeWhile_imp (p := (· == ' ')) hc)⟩
    have hsplit := List.takeWhile_append_dropWhile (p := (· == ' ')) (l := ' ' :: rest)
    have hnext := List.head?_dropWhile_not (· == ' ') (' ' :: rest)
    have hunit : ofRun (' ' :: rest) = .spaces ((rest.takeWhile (· == ' ')).length + 1) := rfl
    rw [hunit]
    rw [hspaces] at hsplit
    rw [← hsplit]
    refine .spaces _ fun hhead ↦ ?_
    rw [hhead] at hnext
    contradiction
  · exact .tab rest

/-- A run is a number of units as often as it is that many copies of the unit. -/
theorem units_eq_ok_iff (h : 0 < unit.width) :
    Indent.units unit run = .ok n ↔ run = unit.margin n := by
  constructor
  · intro hunits
    unfold Indent.units at hunits
    split at hunits
    · contradiction
    · rename_i hindex
      split at hunits
      · rename_i hmod
        obtain rfl := Except.ok.inj hunits
        rw [List.findIdx?_eq_none_iff_findIdx_eq, List.findIdx_eq_length] at hindex
        refine List.eq_replicate_iff.2 ⟨(Nat.div_mul_cancel (Nat.dvd_of_mod_eq_zero hmod)).symm, ?_⟩
        exact fun c hc ↦ by simpa using hindex c hc
      · contradiction
  · rintro rfl
    exact Indent.units_margin h n

/-- A run that is no number of units is wrong at the first character that is none of the unit's, or
else at its end. -/
theorem units_of_ne (hne : ∀ n, run ≠ unit.margin n) :
    ∃ help, Indent.units unit run = .error ⟨run.findIdx (· != unit.char), help⟩ := by
  unfold Indent.units
  cases hindex : run.findIdx? (· != unit.char) with
  | some index =>
    rw [(List.findIdx?_eq_some_iff_findIdx_eq.1 hindex).2]
    exact ⟨_, rfl⟩
  | none =>
    have hlength := List.findIdx?_eq_none_iff_findIdx_eq.1 hindex
    rw [hlength]
    dsimp only
    rw [if_neg]
    · exact ⟨_, rfl⟩
    · intro hmod
      refine hne (run.length / unit.width) (List.eq_replicate_iff.2 ⟨?_, fun c hc ↦ ?_⟩)
      · exact (Nat.div_mul_cancel (Nat.dvd_of_mod_eq_zero hmod)).symm
      · simpa using List.findIdx_eq_length.1 hlength c hc

theorem margin_prefix_margin (h : 0 < unit.width) : unit.margin k <+: unit.margin n ↔ k ≤ n := by
  rw [margin, margin, List.prefix_replicate_iff, List.length_replicate, and_iff_left rfl]
  exact Nat.mul_le_mul_right_iff h

end IndentUnit

namespace Indent

open IndentUnit

/-- What is asked about the indentation of a line. -/
inductive Query where
  /-- The level of a run. -/
  | level (run : List Char)
  /-- So many units in front of a run. -/
  | margin (levels : Nat) (run : List Char)

namespace Query

/-- The run that is asked about. -/
def run : Query → List Char
  | .level run => run
  | .margin _ run => run

/-- The unit that is known when the question has been answered. -/
def learn (known : Option IndentUnit) : Query → Option IndentUnit
  | .level run => (Indent.level known run).2
  | .margin levels run => (Indent.marginOf known levels run).2

theorem learn_eq (known : Option IndentUnit) (q : Query) : q.learn known = Indent.learn known q.run := by
  cases q with
  | level run => exact level_snd known run
  | margin levels run => exact marginOf_snd known levels run

end Query

/-- The unit that is known when these questions have been answered. -/
def unitAfter (queries : List Query) : Option IndentUnit :=
  queries.foldl Query.learn none

variable {known : Option IndentUnit} {unit : IndentUnit} {run : List Char} {k n : Nat}

theorem learn_of_ne_nil (known : Option IndentUnit) (h : run ≠ []) :
    learn known run = some (known.getD (.ofRun run)) := by
  rw [learn, List.isEmpty_eq_false_iff.2 h, if_neg (by decide)]

/-- Units that are learned have a width. -/
theorem learns_width : Learns fun known ↦ ∀ unit ∈ known, 0 < unit.width := by
  rintro known run hk hrun hs unit hunit
  rw [learn_of_ne_nil _ hrun] at hunit
  cases hunit
  cases known with
  | some unit => exact hk unit rfl
  | none => exact (fixed_ofRun hrun hs).width_pos

/-- Whatever is asked, a unit that is known stays. -/
theorem foldl_learn_some (unit : IndentUnit) (queries : List Query) :
    queries.foldl Query.learn (some unit) = some unit := by
  induction queries with
  | nil => rfl
  | cons q queries ih => rw [List.foldl_cons, Query.learn_eq, learn_known, ih]

/-- The unit is fixed by the first run that is not empty, whatever is asked behind it. -/
theorem unitAfter_cases {queries : List Query}
    (h : ∀ q ∈ queries, ∀ c ∈ q.run, isSpacing c = true) :
    (unitAfter queries = none ∧ ∀ q ∈ queries, q.run = []) ∨
      ∃ before q later unit, queries = before ++ q :: later ∧ (∀ p ∈ before, p.run = []) ∧
        Fixed q.run unit ∧ unitAfter queries = some unit := by
  unfold unitAfter
  induction queries with
  | nil => exact .inl ⟨rfl, nofun⟩
  | cons q queries ih =>
    rw [List.forall_mem_cons] at h
    rw [List.foldl_cons, Query.learn_eq]
    by_cases hrun : q.run = []
    · rw [hrun]
      refine (ih h.2).imp (fun ⟨hnone, hall⟩ ↦ ⟨hnone, List.forall_mem_cons.2 ⟨hrun, hall⟩⟩) ?_
      rintro ⟨before, p, later, unit, rfl, hbefore, hfixed, hsome⟩
      exact ⟨q :: before, p, later, unit, rfl, List.forall_mem_cons.2 ⟨hrun, hbefore⟩, hfixed, hsome⟩
    · rw [learn_of_ne_nil _ hrun, foldl_learn_some]
      exact .inr ⟨[], q, queries, _, rfl, nofun, fixed_ofRun hrun h.1, rfl⟩

theorem level_of_learn (h : learn known run = some unit) (hrun : run ≠ []) :
    (level known run).1 = units unit run := by
  unfold level
  rw [h]
  dsimp only
  rw [List.isEmpty_eq_false_iff.2 hrun, if_neg (by decide)]

/-- The level of a run is the number of units that it consists of. -/
theorem level_eq_ok_iff (hw : 0 < unit.width) (h : ∀ u ∈ learn known run, u = unit) :
    (level known run).1 = .ok n ↔ run = unit.margin n := by
  by_cases hrun : run = []
  · subst hrun
    have hzero : unit.margin n = [] ↔ n = 0 := by
      rw [margin, List.replicate_eq_nil_iff, Nat.mul_eq_zero, or_iff_left (Nat.ne_of_gt hw)]
    rw [level_nil, eq_comm (a := []), hzero, Except.ok.injEq, eq_comm]
  · have hlearn := learn_of_ne_nil known hrun
    rw [h _ hlearn] at hlearn
    rw [level_of_learn hlearn hrun, units_eq_ok_iff hw]

/-- A run that is no number of units has no level. -/
theorem level_of_ne (h : ∀ u ∈ learn known run, u = unit)
    (hne : ∀ n, run ≠ unit.margin n) :
    ∃ help, (level known run).1 = .error ⟨run.findIdx (· != unit.char), help⟩ := by
  have hrun : run ≠ [] := fun hnil ↦ hne 0 (by rw [hnil, margin_zero])
  have hlearn := learn_of_ne_nil known hrun
  rw [h _ hlearn] at hlearn
  rw [level_of_learn hlearn hrun]
  exact units_of_ne hne

/-- In front of a run of so many units are the margins of as many levels. -/
theorem marginOf_of_level (hw : 0 < unit.width) (h : ∀ u ∈ learn known run, u = unit)
    (hn : 1 ≤ n) (hlevel : (level known run).1 = .ok n) (k : Nat) :
    (marginOf known k run).1 = if k ≤ n then some (unit.margin k) else none := by
  obtain rfl := (level_eq_ok_iff hw h).1 hlevel
  have hrun : unit.margin n ≠ [] := by
    rw [margin, ne_eq, List.replicate_eq_nil_iff, Nat.mul_eq_zero]
    omega
  have hlearn := learn_of_ne_nil known hrun
  rw [h _ hlearn] at hlearn
  unfold marginOf
  rw [hlearn]
  dsimp only
  rw [List.isEmpty_eq_false_iff.2 hrun, Bool.not_false, Bool.true_and]
  simp only [List.isPrefixOf_iff_prefix, margin_prefix_margin hw]

/-- The margin of a level below the outermost is looked for in front of the run, whatever stands behind
it there. -/
theorem marginOf_eq_ite (hw : 0 < unit.width) (h : ∀ u ∈ learn known run, u = unit) (k : Nat) :
    (marginOf known (k + 1) run).1 =
      if unit.margin (k + 1) <+: run then some (unit.margin (k + 1)) else none := by
  by_cases hrun : run = []
  · have hne : ¬unit.margin (k + 1) <+: [] := by
      rw [List.prefix_nil, margin, List.replicate_eq_nil_iff, Nat.mul_eq_zero]
      omega
    rw [hrun, if_neg hne]
    unfold marginOf
    split <;> rfl
  · have hlearn := learn_of_ne_nil known hrun
    rw [h _ hlearn] at hlearn
    unfold marginOf
    rw [hlearn]
    dsimp only
    rw [List.isEmpty_eq_false_iff.2 hrun, Bool.not_false, Bool.true_and]
    simp only [List.isPrefixOf_iff_prefix]

end Indent

/-- Spacing is as many bytes as it is characters. -/
theorem byteLength_of_spacing {run : List Char} (h : ∀ c ∈ run, isSpacing c = true) :
    byteLength run = run.length := by
  induction run with
  | nil => rfl
  | cons c run ih =>
    rw [List.forall_mem_cons] at h
    rw [byteLength_cons, ih h.2, Tag.utf8Size_of_isSpacing h.1, List.length_cons, Nat.add_comm]

namespace Page

variable {σ E : Type} {g : Setup σ E} {n : Nat} {p q : Page E} {s t : ReadState σ}
variable {Known : Option IndentUnit → Prop} {unit : IndentUnit}

theorem spacing_of_mem {c : Char} (h : c ∈ s.spacing) : isSpacing c = true :=
  List.mem_takeWhile_imp h

/-- What is known of the unit stays known over the spacing in front of a line. -/
theorem known_learn (hk : Indent.Learns Known) (hs : Known s.unit) :
    Known (Indent.learn s.unit s.spacing) := by
  by_cases hrun : s.spacing = []
  · rw [hrun]
    exact hs
  · exact hk s.unit s.spacing hs hrun fun _ ↦ spacing_of_mem

/-- What is known of the unit stays known from line to line. -/
theorem Step.known (hk : Indent.Learns Known) (h : Step g p s q t) (hs : Known s.unit) :
    Known t.unit := by
  cases h with
  | blank => exact hs
  | text _ _ hline =>
    have hunit := verbatim_known Known (known_learn hk hs) hline
    exact hunit
  | markup _ _ _ _ hchain =>
    have hunit := chain_known hk (known_learn hk hs) hchain
    exact hunit

theorem learned_some (h : s.unit = some unit) : learned s = some unit := by
  rw [learned, h, Indent.learn_known, ite_self]

theorem learned_of_written (h : s.Written) : learned s = Indent.learn s.unit s.spacing :=
  if_neg (by rw [show s.cursor.skipSpacing.atLineEnd = false from h]; decide)

/-- In front of all lines of a run, no more than one unit is known. -/
theorem exists_unit_of_stops (hs : ∀ unit ∈ s.unit, 0 < unit.width) : ∃ unit : IndentUnit,
    0 < unit.width ∧ ∀ stop ∈ stops g n p s, ∀ u ∈ learned stop.2, u = unit := by
  have hstays {unit : IndentUnit} {n : Nat} {p : Page E} {s : ReadState σ} (h : s.unit = some unit) :
      ∀ stop ∈ stops g n p s, stop.2.unit = some unit :=
    (lines_induction (I := fun _ s ↦ s.unit = some unit)
      (fun hunit hstep ↦ hstep.known (Indent.learns_known unit) hunit) h).1
  induction n generalizing p s with
  | zero => exact ⟨.tab, Nat.one_pos, nofun⟩
  | succ n ih =>
    by_cases hend : s.cursor.rest = []
    · rw [stops_at_end hend]
      exact ⟨.tab, Nat.one_pos, nofun⟩
    · have hlearned : ∀ unit ∈ learned s, 0 < unit.width := by
        unfold learned
        split
        · exact hs
        · exact known_learn Indent.learns_width hs
      cases hline : line g p s with
      | error f u =>
        rw [stops_of_error hend hline]
        simp only [List.mem_singleton, forall_eq]
        cases hunit : learned s with
        | none => exact ⟨.tab, Nat.one_pos, nofun⟩
        | some unit => exact ⟨unit, hlearned unit hunit, fun u hu ↦ (Option.some.inj hu).symm⟩
      | ok q t =>
        rw [stops_of_ok hend hline]
        simp only [List.forall_mem_cons]
        cases hunit : learned s with
        | none =>
          obtain ⟨unit, hw, hrest⟩ := ih (p := q) ((step_of_line hline).known Indent.learns_width hs)
          exact ⟨unit, hw, nofun, hrest⟩
        | some unit =>
          refine ⟨unit, hlearned unit hunit, fun u hu ↦ (Option.some.inj hu).symm, ?_⟩
          intro stop hstop u hu
          rw [learned_some (hstays ((line_keeps hline).unit unit hunit) stop hstop)] at hu
          exact (Option.some.inj hu).symm

/-- A line whose spacing has no level is an error at the first character that does not fit. -/
theorem line_of_misfit {misfit : Misfit} (h : s.Written) (htakes : p.takes s = none)
    (hlevel : (Indent.level s.unit s.spacing).1 = .error misfit) : ∃ u, line g p s =
      .error (.error ⟨.mixedIndentation, s.cursor.offset + misfit.index, some misfit.help⟩) u := by
  have hskip : (s.cursor.skip misfit.index).offset = s.cursor.offset + misfit.index := by
    have hle := Link.index_le_of_level hlevel
    have hfront : s.cursor.rest.take misfit.index = s.spacing.take misfit.index := by
      conv_lhs => rw [← List.takeWhile_append_dropWhile (p := isSpacing) (l := s.cursor.rest)]
      exact List.take_append_of_le_length hle
    rw [Cursor.offset_skip, hfront, byteLength_of_spacing fun c hc ↦
      spacing_of_mem (List.mem_of_mem_take hc), List.length_take, Nat.min_eq_left hle]
  have herror : Page.level s.cursor s.spacing s = .error
      (.error ⟨.mixedIndentation, s.cursor.offset + misfit.index, some misfit.help⟩)
      { s with unit := Indent.learn s.unit s.spacing } := by
    rw [Page.level, bind_of_ok (show (get : Reader σ _) s = .ok s s from rfl)]
    dsimp only
    rw [show Indent.level s.unit s.spacing = (.error misfit, Indent.learn s.unit s.spacing) from
      Prod.ext hlevel (Indent.level_snd ..), ← hskip]
    rfl
  rw [line_of_takes_none h htakes, markupLine, bind_of_error herror]
  exact ⟨_, rfl⟩

end Page

section Template

open Indent Page

variable {σ E : Type}

theorem unitAfter_concat (queries : List Query) (q : Query) :
    unitAfter (queries ++ [q]) = learn (unitAfter queries) q.run := by
  rw [unitAfter, List.foldl_concat, Query.learn_eq, unitAfter]

/-- Where a run starts, no unit is known; from then on its questions tell what is. -/
theorem learns_unitAfter : Learns fun known ↦ ∃ queries : List Query,
    (∀ q ∈ queries, ∀ c ∈ q.run, isSpacing c = true) ∧ known = unitAfter queries := by
  rintro _ run ⟨queries, hqueries, rfl⟩ - hrun
  refine ⟨queries ++ [.level run], List.forall_mem_append.2 ⟨hqueries, ?_⟩, ?_⟩
  · exact List.forall_mem_singleton.2 hrun
  · rw [unitAfter_concat]
    rfl

theorem width_unitAfter {queries : List Query} {unit : IndentUnit}
    (h : ∀ q ∈ queries, ∀ c ∈ q.run, isSpacing c = true) (hunit : unitAfter queries = some unit) :
    0 < unit.width := by
  rcases unitAfter_cases h with ⟨hnone, -⟩ | ⟨_, _, _, _, -, -, hfixed, hsome⟩
  · rw [hnone] at hunit
    contradiction
  · obtain rfl := Option.some.inj (hsome.symm.trans hunit)
    exact hfixed.width_pos

/-- A line that is not text is opened at the level that its spacing is the margin of. -/
theorem opens_of_line {g : Setup σ E} {p q : Page E} {s t : ReadState σ} {unit : IndentUnit}
    (hw : 0 < unit.width) (hunit : ∀ u ∈ learn s.unit s.spacing, u = unit) (h : s.Written)
    (htakes : p.takes s = none) (hline : line g p s = .ok q t) :
    ∃ n line lines owner tail, s.spacing = unit.margin n ∧
      Opens g n p.outline line lines q.outline owner tail := by
  cases step_of_line hline with
  | blank hblank =>
    rw [show s.cursor.skipSpacing.atLineEnd = false from h] at hblank
    contradiction
  | text _ hfound =>
    rw [htakes] at hfound
    contradiction
  | markup _ _ hlevel hopens =>
    exact ⟨_, _, _, _, _, (level_eq_ok_iff hw hunit).1 hlevel, hopens⟩

/-- Whatever is asked of the indentation, the unit is fixed by the first run that is not empty, and
stays. From then on the level of a run is the number of units that it consists of, and a run that is no
number of units is wrong at the first character that does not fit. So in every run of the lexer there is
one unit: a line that is not text is opened at the level of as many units as it is indented by, or the
run fails with a mixed indentation at the character that does not fit. -/
theorem lex_indented (parser : ExpressionParser σ E) (maxDepth : Nat) (source : List Char) (x : σ) :
    (∀ queries : List Query, (∀ q ∈ queries, ∀ c ∈ q.run, isSpacing c = true) →
      ((unitAfter queries = none ∧ ∀ q ∈ queries, q.run = []) ∨
        ∃ before q later unit, queries = before ++ q :: later ∧ (∀ p ∈ before, p.run = []) ∧
          IndentUnit.Fixed q.run unit ∧ 0 < unit.width ∧ unitAfter queries = some unit) ∧
      ∀ run, (∀ c ∈ run, isSpacing c = true) →
        (run = [] → (level (unitAfter queries) run).1 = .ok 0) ∧
        ∀ unit, unitAfter (queries ++ [.level run]) = some unit →
          (∀ n, (level (unitAfter queries) run).1 = .ok n ↔ run = unit.margin n) ∧
          ((∀ n, run ≠ unit.margin n) → ∃ help, (level (unitAfter queries) run).1 =
            .error ⟨run.findIdx (· != unit.char), help⟩) ∧
          ∀ n, 1 ≤ n → (level (unitAfter queries) run).1 = .ok n → ∀ k,
            (marginOf (unitAfter queries) k run).1 = if k ≤ n then some (unit.margin k) else none) ∧
    ∃ unit : IndentUnit, 0 < unit.width ∧ ∀ p s, (p, s) ∈ reached parser maxDepth source x → s.Written →
      (∃ queries : List Query, (∀ q ∈ queries, ∀ c ∈ q.run, isSpacing c = true) ∧
        learn s.unit s.spacing = unitAfter queries ∧ ∀ u ∈ unitAfter queries, u = unit) ∧
      (p.takes s = none →
        (∀ q t, line ⟨parser, maxDepth, source.length + 1⟩ p s = .ok q t →
          ∃ n line lines owner tail, s.spacing = unit.margin n ∧
            Opens ⟨parser, maxDepth, source.length + 1⟩ n p.outline line lines q.outline owner tail) ∧
        ((∀ n, s.spacing ≠ unit.margin n) → ∃ help, lex parser maxDepth source x = .error
          (.error ⟨.mixedIndentation, s.cursor.offset + s.spacing.findIdx (· != unit.char),
            some help⟩))) := by
  constructor
  · intro queries hqueries
    constructor
    · refine (unitAfter_cases hqueries).imp_right ?_
      rintro ⟨before, q, later, unit, heq, hbefore, hfixed, hsome⟩
      exact ⟨before, q, later, unit, heq, hbefore, hfixed, hfixed.width_pos, hsome⟩
    · intro run hrun
      refine ⟨fun hnil ↦ by rw [hnil, level_nil], fun unit hunit ↦ ?_⟩
      have hall : ∀ q ∈ queries ++ [.level run], ∀ c ∈ q.run, isSpacing c = true :=
        List.forall_mem_append.2 ⟨hqueries, List.forall_mem_singleton.2 hrun⟩
      have hw := width_unitAfter hall hunit
      rw [unitAfter_concat] at hunit
      have honly : ∀ u ∈ learn (unitAfter queries) run, u = unit :=
        fun u hu ↦ Option.some.inj (hu.symm.trans hunit)
      exact ⟨fun n ↦ level_eq_ok_iff hw honly, level_of_ne honly,
        fun n hn hlevel ↦ marginOf_of_level hw honly hn hlevel⟩
  · obtain ⟨unit, hw, hunit⟩ := exists_unit_of_stops
      (g := ⟨parser, maxDepth, source.length + 1⟩) (n := source.length + 1)
      (p := .empty maxDepth) (s := ⟨.start source, none, x⟩) nofun
    refine ⟨unit, hw, fun p s hstop h ↦ ?_⟩
    have hlearned := hunit (p, s) hstop
    rw [learned_of_written h] at hlearned
    refine ⟨?_, fun htakes ↦ ⟨fun q t ↦ opens_of_line hw hlearned h htakes, fun hne ↦ ?_⟩⟩
    · have hknown := (lines_induction (I := fun _ s ↦ ∃ queries : List Query,
        (∀ q ∈ queries, ∀ c ∈ q.run, isSpacing c = true) ∧ s.unit = unitAfter queries)
        (fun hknown hstep ↦ hstep.known learns_unitAfter hknown) ⟨[], nofun, rfl⟩).1 (p, s) hstop
      obtain ⟨queries, hqueries, heq⟩ := known_learn learns_unitAfter hknown
      exact ⟨queries, hqueries, heq, heq ▸ hlearned⟩
    · obtain ⟨help, hlevel⟩ := level_of_ne hlearned hne
      obtain ⟨u, hline⟩ := line_of_misfit h htakes hlevel
      refine ⟨help, ?_⟩
      unfold lex
      rw [readTemplate_of_error (lines_of_error hstop hline)]

/-- Where two spaces are a unit, four are two units, and three are an error at their end. -/
theorem lex_indented_spaces :
    (∀ k, (marginOf (unitAfter [.margin 1 "  ".toList]) k "    ".toList).1 =
        if k ≤ 2 then some ((IndentUnit.spaces 2).margin k) else none) ∧
      ∃ help, lex ExpressionParser.loose 32 "a\n  b\n   c".toList () =
        .error (.error ⟨.mixedIndentation, 9, some help⟩) := by
  obtain ⟨hqueries, unit, -, hlines⟩ :=
    lex_indented ExpressionParser.loose 32 "a\n  b\n   c".toList ()
  constructor
  · obtain ⟨-, hrun⟩ := hqueries [.margin 1 "  ".toList] (by simp [Query.run, isSpacing])
    obtain ⟨hlevel, -, hmargin⟩ :=
      (hrun "    ".toList (by simp [isSpacing])).2 (.spaces 2) (by decide)
    exact hmargin 2 (by decide) ((hlevel 2).2 (by decide))
  · obtain ⟨⟨p, s⟩, hstop, htest⟩ := List.any_eq_true.1
      (show (reached ExpressionParser.loose 32 "a\n  b\n   c".toList ()).any (fun stop ↦
        !stop.2.cursor.skipSpacing.atLineEnd && (stop.1.takes stop.2).isNone &&
          stop.2.spacing == "   ".toList && stop.2.unit == some (.spaces 2) &&
            stop.2.cursor.offset == 6) = true by decide +kernel)
    simp only [Bool.and_eq_true, Bool.not_eq_true', Option.isNone_iff_eq_none, beq_iff_eq] at htest
    obtain ⟨⟨⟨⟨hwritten, htakes⟩, hspacing⟩, hunit⟩, hoffset⟩ := htest
    obtain ⟨⟨queries, -, hlearn, honly⟩, hline⟩ := hlines p s hstop hwritten
    rw [hunit, Indent.learn_known] at hlearn
    obtain rfl := honly _ hlearn.symm
    obtain ⟨help, hlex⟩ := (hline htakes).2 fun n hn ↦ by
      have hlength := congrArg List.length (hspacing.symm.trans hn)
      rw [IndentUnit.margin, List.length_replicate, IndentUnit.width] at hlength
      change 3 = n * 2 at hlength
      omega
    rw [hspacing, hoffset] at hlex
    exact ⟨help, hlex⟩

end Template

end Pug

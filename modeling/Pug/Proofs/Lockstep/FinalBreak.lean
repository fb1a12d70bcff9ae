import Pug.Proofs.Layout.Outcome
import Pug.Proofs.Lockstep.Ending

/-!
# Line breaks at the end

The end of a template ends its last line. So line breaks behind that line change nothing: a template
comes to the same tree with them and without them, or to the same failure. The two runs are over one
body, with other line breaks behind it. What is asked of the text is answered by the line; what goes
on over the end of a line, a list of attributes, a block of code or an expression in brackets, finds
only line breaks there, and behind them the end.
-/

namespace Pug

open Text Token Reader
open ExpressionParser (loose)

namespace Page

variable {σ E : Type} {g : Setup σ E} {p : Page E} {s : ReadState σ} {n : Nat}

/-- Lines of which nothing but line breaks is left come to what has been read, unless the rounds do
not suffice. -/
theorem outcome_of_breaks (hb : ∀ x ∈ s.cursor.rest, isBreak x = true)
    (hn : outcome (lines g n p s) ≠ .error .stalled) :
    outcome (lines g n p s) = .ok p.outline.finish := by
  cases h : lines g n p s with
  | ok q t => rw [outcome, (lines_of_breaks hb h).1]
  | error f t =>
    rw [h, lines_of_breaks_of_error hb h] at hn
    exact absurd rfl hn

end Page

namespace Link

section Breaks

variable {σ₁ σ₂ E₁ E₂ : Type} {L : Link σ₁ σ₂ E₁ E₂} {g₁ : Setup σ₁ E₁} {g₂ : Setup σ₂ E₂}
variable {s : ReadState σ₁} {u : ReadState σ₂}

/-- Where the first template has ended, the second has line breaks left at most. -/
theorem Between.breaks (h : L.Between s u) (hs : s.cursor.rest = [])
    (hb : ∀ x ∈ L.ends₂, isBreak x = true) : ∀ x ∈ u.cursor.rest, isBreak x = true := by
  rcases h.places with hp | ⟨-, -, hd⟩
  · rwa [hp.rest_eq_ends₂ hs]
  · intro x hx
    rw [hd] at hx
    refine hb x ?_
    rw [show L.ends₂ = _ from (Cursor.leads_nextLine ⟨L.offset (byteLength L.body), L.ends₂⟩).1]
    exact List.mem_append_right _ hx

/-- Where nothing but line breaks stands behind the body, the lines of both templates come to the
same, if the rounds suffice. -/
theorem outcome_lines (hg : L.Setups g₁ g₂) (hL : L.Closed) (hb : ∀ x ∈ L.ends₂, isBreak x = true)
    (hexcused : ∀ f, L.Excused f ↔ f = .stalled) (hoffset : L.offset 0 = 0) {n₁ n₂ : Nat}
    (hle : n₁ ≤ n₂) (p : Page E₁) (hs : L.States s u)
    (h₁ : Page.outcome (Page.lines g₁ n₁ p s) ≠ .error .stalled)
    (h₂ : Page.outcome (Page.lines g₂ n₂ (L.onto #[] p) u) ≠ .error .stalled) :
    Page.outcome (Page.lines g₂ n₂ (L.onto #[] p) u) =
      L.outcome (Page.outcome (Page.lines g₁ n₁ p s)) := by
  have hstrict : ¬L.Lenient := fun hall ↦ nomatch (hexcused _).1 (hall .brokeDown)
  have hruns := lines_runs #[] hg hL hle (.inl ((hexcused _).2 rfl)) p hs.between
  cases hr : Page.lines g₁ n₁ p s with
  | error f t =>
    rw [hr] at hruns h₁
    obtain ⟨v, hv, -⟩ := hruns.resolve_left fun hf ↦ h₁ (congrArg Except.error ((hexcused f).1 hf))
    rw [hv]
    rfl
  | ok page t =>
    rw [hr] at hruns
    obtain ⟨n, v, hn, hv, hend, hlines⟩ := hruns.resolve_left fun hlost ↦ hstrict hlost.lenient
    obtain ⟨m, rfl⟩ := Nat.exists_eq_add_of_le (Nat.le_of_lt (Nat.lt_of_lt_of_le hn hle))
    rw [hlines] at h₂ ⊢
    rw [Page.outcome_of_breaks (hv.breaks hend hb) h₂]
    exact congrArg Except.ok (finish_recast L.toRecast hoffset page.outline)

end Breaks

variable {body ends₁ ends₂ : List Char} {hb₁ : ∀ x ∈ ends₁, isBreak x = true}
variable {hb₂ : ∀ x ∈ ends₂, isBreak x = true} {maxDepth : Nat}

/-- Two runs over one body with other line breaks behind it. -/
def rebreaking (body ends₁ ends₂ : List Char) (hb₁ : ∀ x ∈ ends₁, isBreak x = true)
    (hb₂ : ∀ x ∈ ends₂, isBreak x = true) : Link Unit Unit Shape Shape :=
  bare (.moved 0) body ends₁ ends₂ hb₁ hb₂ (.inl rfl)
    (fun before w _ _ ↦ Recast.offset_moved_add 0 before w) (fun _ _ ↦ True) (· = .stalled)

/-- The loose parser answers alike, whatever line breaks stand behind the body. -/
theorem answers_rebreaking : (rebreaking body ends₁ ends₂ hb₁ hb₂).Answers loose loose := by
  refine answers_loose rfl (fun _ _ ↦ trivial) (fun mode c d _ h ↦ ?_) fun mode c d raw h hx ↦ ?_
  · obtain ⟨before, after, -, rfl, rfl⟩ := h
    change extent (mode.write .lf) (LineEnding.lf.write after ++ ends₂) =
      (extent mode (after ++ ends₁)).write .lf
    rw [Mode.write_lf, LineEnding.write_lf, Extent.write_lf]
    exact extent_breaks hb₂ hb₁
  · -- The expression ends before the line breaks.
    obtain ⟨before, after, hbody, rfl, rfl⟩ := h
    obtain ⟨-, others, rfl⟩ := extent_ends hb₁ (Extent.Scan.followsLine_of_breaks hb₁) hx
    exact ⟨before, others, hbody, by simp, by simp⟩

/-- Templates with one body and line breaks behind it come to the same, if the second has as many of
them or more and no line break is cut in two. -/
theorem lex_rebroken (hb₁ : ∀ x ∈ ends₁, isBreak x = true) (hb₂ : ∀ x ∈ ends₂, isBreak x = true)
    (hends : ends₁ = [] ∨ ∃ e : LineEnding, ends₁ = e.chars) (hle : ends₁.length ≤ ends₂.length)
    (h₁ : body.getLast? = some '\r' → ends₁.head? ≠ some '\n')
    (h₂ : body.getLast? = some '\r' → ends₂.head? ≠ some '\n') (maxDepth : Nat) :
    lex loose maxDepth (body ++ ends₂) () = lex loose maxDepth (body ++ ends₁) () := by
  let L := rebreaking body ends₁ ends₂ hb₁ hb₂
  have hclosed : L.Closed := by
    refine ⟨hends, fun hnil ↦ ?_, h₁, ?_, ?_⟩
    · rw [show ends₂ = [] from hnil] at hle
      exact List.length_eq_zero_iff.1 (Nat.le_zero.1 hle)
    · rwa [show L.ending.write L.body = body from LineEnding.write_lf body]
    · rintro a _ run rfl - -
      exact .inr ⟨rfl, rfl⟩
  have hrounds : (body ++ ends₁).length + 1 ≤ (body ++ ends₂).length + 1 := by
    rw [List.length_append, List.length_append]
    omega
  have hg : L.Setups ⟨loose, maxDepth, (body ++ ends₁).length + 1⟩
      ⟨loose, maxDepth, (body ++ ends₂).length + 1⟩ :=
    answers_rebreaking.setups (fun _ h ↦ .inl h) (fun _ h ↦ .inl h) rfl hrounds (.inl rfl)
  have hstart : L.States ⟨.start (body ++ ends₁), none, ()⟩ ⟨.start (body ++ ends₂), none, ()⟩ := by
    refine ⟨⟨[], body, rfl, rfl, ?_⟩, trivial, rfl⟩
    change _ = Cursor.mk 0 (LineEnding.lf.write body ++ ends₂)
    rw [LineEnding.write_lf]
    rfl
  have hstalls (source : List Char) : lex loose maxDepth source () ≠ .error .stalled :=
    lex_ne_stalled
  simp only [Page.lex_eq_outcome] at hstalls ⊢
  have hlines := outcome_lines hg hclosed hb₂ (fun _ ↦ Iff.rfl) rfl hrounds (.empty maxDepth) hstart
    (hstalls _) (by rw [onto_empty]; exact hstalls _)
  rw [onto_empty] at hlines
  exact hlines.trans (outcome_moved_zero _)

end Link

/-- Line breaks behind a template change nothing. -/
theorem lex_append_breaks {breaks : List Char} (hb : ∀ x ∈ breaks, isBreak x = true)
    (maxDepth : Nat) (source : List Char) :
    lex loose maxDepth (source ++ breaks) () = lex loose maxDepth source () := by
  by_cases hcut : source.getLast? = some '\r' ∧ breaks.head? = some '\n'
  · -- The line feed completes the line break that the template ends with.
    obtain ⟨body, rfl⟩ := List.getLast?_eq_some_iff.1 hcut.1
    have hr : ∀ x ∈ ['\r'], isBreak x = true := List.forall_mem_singleton.2 rfl
    rw [List.append_assoc]
    exact Link.lex_rebroken hr (List.forall_mem_append.2 ⟨hr, hb⟩) (.inr ⟨.cr, rfl⟩)
      (Nat.le_add_left 1 _) (fun _ ↦ by decide) (fun _ ↦ by simp) maxDepth
  · have hsame : lex loose maxDepth (source ++ breaks) () = lex loose maxDepth (source ++ []) () :=
      Link.lex_rebroken Link.isBreak_of_mem_nil hb (.inl rfl) (Nat.zero_le _) (fun _ ↦ by decide)
        (fun hr hn ↦ hcut ⟨hr, hn⟩) maxDepth
    rwa [List.append_nil] at hsame

/-- The final line break is optional: with it a template comes to the same tree with the same spans,
or to the same failure, at the same place and with the same help. -/
theorem lex_final_break (maxDepth : Nat) (source : List Char) :
    lex loose maxDepth (source ++ ['\n']) () = lex loose maxDepth source () :=
  lex_append_breaks (List.forall_mem_singleton.2 rfl) maxDepth source

end Pug

import Pug.Proofs.Lockstep.Page

/-!
# Whole templates in lockstep

Where both templates end behind the body, two runs over them end in corresponding trees or in
corresponding failures. Over one template they end alike if the expression parsers answer alike.
-/

namespace Pug

open Text Token Reader
open ExpressionParser (Call)

variable {σ₁ σ₂ E E₁ E₂ : Type}

namespace Link

variable {L : Link σ₁ σ₂ E₁ E₂}

/-- The trees of an outline that is recast are recast. -/
theorem children_finish_recast (R : Recast E₁ E₂) (o : Outline E₁) :
    (o.onto R #[]).finish.children = R.tokens o.finish.children := by
  have hchildren := Outline.finish_onto R (.empty o.maxDepth) (o.onto R #[]) o rfl
  rwa [show (Outline.empty o.maxDepth : Outline E₂).finish.children = [] from rfl,
    List.nil_append] at hchildren

theorem finish_recast (R : Recast E₁ E₂) (hoffset : R.offset 0 = 0) (o : Outline E₁) :
    (o.onto R #[]).finish = R.token o.finish := by
  rw [Recast.token_eq, Outline.finish, Token.mk.injEq]
  refine ⟨rfl, rfl, ?_, rfl, children_finish_recast R o⟩
  rw [Recast.span]
  change _ = Span.mk (R.offset 0) (R.offset 0)
  rw [hoffset]

theorem onto_empty (L : Link σ₁ σ₂ E₁ E₂) (maxDepth : Nat) :
    L.onto #[] (.empty maxDepth) = .empty maxDepth := by
  simp [onto, Page.empty, Outline.onto, Outline.empty]

section Template

variable {parser₁ : ExpressionParser σ₁ E₁} {parser₂ : ExpressionParser σ₂ E₂} {maxDepth : Nat}
variable {source : List Char} {x : σ₁} {y : σ₂}

/-- Two runs over whole templates, from their starts. -/
structure Whole (L : Link σ₁ σ₂ E₁ E₂) (source : List Char) : Prop where
  closed : L.Closed
  body : L.body = source
  alone : L.Alone
  offset : L.offset 0 = 0
  units : L.units none none

/-- Behind the body alone there is nothing to tell the runs apart. -/
theorem Exact.closed (hL : L.Exact) : L.Closed where
  ends₁ := .inl hL.ends₁
  ends₂ _ := hL.ends₁
  whole₁ := fun _ ↦ by rw [hL.ends₁]; nofun
  whole₂ := fun _ ↦ by rw [hL.ends₂]; nofun
  learns := by
    intro a b run h _ _
    obtain rfl := (hL.units a b).1 h
    exact .inr ⟨rfl, (hL.units _ _).2 rfl⟩

theorem Whole.of_exact (hL : L.Exact) (hbody : L.body = source) (hoffset : L.offset 0 = 0) :
    L.Whole source where
  closed := hL.closed
  body := hbody
  alone := ⟨hL.ends₁, hL.ends₂⟩
  offset := hoffset
  units := (hL.units none none).2 rfl

/-- Behind a whole template no line follows. -/
theorem Whole.not_severed (hL : L.Whole source) (t : ReadState σ₁) : ¬L.Severed t := by
  rintro ⟨-, offset, hindented⟩
  refine hindented (Cursor.flush_of_breaks ?_)
  rw [hL.alone.ends₂]
  exact isBreak_of_mem_nil

/-- Over whole templates the runs end in corresponding trees or in corresponding failures. -/
theorem readTemplate_runs (hL : L.Whole source)
    (hg : L.Setups ⟨parser₁, maxDepth, source.length + 1⟩
      ⟨parser₂, maxDepth, (L.ending.write source).length + 1⟩) (hp : L.parsers x y) :
    match readTemplate parser₁ maxDepth source x with
    | .ok root t => (∃ page, readLines parser₁ maxDepth source x = .ok page t ∧
          root = page.outline.finish ∧ L.Lost page.outline t) ∨
        ∃ v, readTemplate parser₂ maxDepth (L.ending.write source) y = .ok (L.token root) v ∧
          L.States t v
    | .error f t => L.Excused f ∨
        ∃ v, readTemplate parser₂ maxDepth (L.ending.write source) y = .error (L.failure f) v ∧
          L.States t v := by
  have hstart : L.States ⟨.start source, none, x⟩ ⟨.start (L.ending.write source), none, y⟩ := by
    refine ⟨⟨[], source, by rw [hL.body]; rfl, ?_, ?_⟩, hp, hL.units⟩
    · rw [hL.alone.ends₁, List.append_nil]
      rfl
    · rw [hL.alone.ends₂, List.append_nil, byteLength_nil, hL.offset]
      rfl
  have hlines := lines_ends #[] hg hL.closed hL.alone.ends₂ hg.rounds_le hg.rounds_eq (.empty maxDepth)
    hstart
  rw [onto_empty] at hlines
  cases hr : readLines parser₁ maxDepth source x with
  | error f t =>
    rw [readTemplate_of_error hr]
    rw [show Page.lines _ _ _ _ = _ from hr] at hlines
    exact hlines.imp_right fun ⟨v, hv, ht⟩ ↦ ⟨v, readTemplate_of_error hv, ht.states hL.alone⟩
  | ok page t =>
    rw [readTemplate_eq_ok.2 ⟨page, hr, rfl⟩]
    rw [show Page.lines _ _ _ _ = _ from hr] at hlines
    refine hlines.imp (fun hlost ↦ ⟨page, rfl, rfl, hlost⟩) fun ⟨v, hv, ht⟩ ↦ ⟨v, ?_, ht⟩
    exact readTemplate_eq_ok.2 ⟨L.onto #[] page, hv, (finish_recast _ hL.offset _).symm⟩

/-- Corresponding ends of two runs. -/
inductive Ends (L : Link σ₁ σ₂ E₁ E₂) : EStateM.Result Failure (ReadState σ₁) (Token E₁) →
    EStateM.Result Failure (ReadState σ₂) (Token E₂) → Prop where
  | ok {root : Token E₁} {t : ReadState σ₁} {v : ReadState σ₂} (h : L.States t v) :
    Ends L (.ok root t) (.ok (L.token root) v)
  | error {f : Failure} {t : ReadState σ₁} {v : ReadState σ₂} (h : L.States t v) :
    Ends L (.error f t) (.error (L.failure f) v)

/-- Where no failure is excused that happens, the runs end alike. -/
theorem readTemplate_ends (hL : L.Whole source)
    (hg : L.Setups ⟨parser₁, maxDepth, source.length + 1⟩
      ⟨parser₂, maxDepth, (L.ending.write source).length + 1⟩) (hp : L.parsers x y)
    (hstrict : ¬L.Lenient)
    (hexcused : ∀ f t, L.Excused f → readTemplate parser₁ maxDepth source x ≠ .error f t) :
    L.Ends (readTemplate parser₁ maxDepth source x)
      (readTemplate parser₂ maxDepth (L.ending.write source) y) := by
  have hruns := readTemplate_runs hL hg hp
  cases hr : readTemplate parser₁ maxDepth source x with
  | ok root t =>
    rw [hr] at hruns
    rcases hruns with ⟨_, _, _, hlost⟩ | ⟨v, hv, ht⟩
    · exact absurd hlost.lenient hstrict
    · rw [hv]
      exact .ok ht
  | error f t =>
    rw [hr] at hruns
    rcases hruns with hx | ⟨v, hv, ht⟩
    · exact absurd hr (hexcused f t hx)
    · rw [hv]
      exact .error ht

end Template

theorem Ends.lex_eq {parser₁ : ExpressionParser σ₁ E₁} {parser₂ : ExpressionParser σ₂ E₂}
    {maxDepth : Nat} {source source' : List Char} {x : σ₁} {y : σ₂}
    (h : L.Ends (readTemplate parser₁ maxDepth source x)
      (readTemplate parser₂ maxDepth source' y)) :
    lex parser₂ maxDepth source' y = L.outcome (lex parser₁ maxDepth source x) := by
  unfold lex
  generalize readTemplate parser₁ maxDepth source x = r₁ at h ⊢
  generalize readTemplate parser₂ maxDepth source' y = r₂ at h ⊢
  cases h <;> rfl

section OnOne

variable {source : List Char} {parsers : σ₁ → σ₂ → Prop} {c d : Cursor}

theorem onOne_eq (h : (onOne E source parsers).Places c d) : d = c := by
  have hrest := h.rest_eq rfl rfl rfl
  have hoffset : d.offset = c.offset := h.offset_eq
  cases c
  cases d
  exact (Cursor.mk.injEq ..).mpr ⟨hoffset, hrest⟩

theorem outcome_moved_zero (r : Except Failure (Token E)) :
    (Recast.moved 0 : Recast E E).outcome r = r := by
  cases r with
  | ok root => exact congrArg Except.ok ((Recast.token_moved 0 root).trans (shift_zero root))
  | error f => cases f <;> rfl

theorem onOne_outcome (r : Except Failure (Token E)) :
    (onOne E source parsers).outcome r = r :=
  outcome_moved_zero r

theorem onOne_whole : (onOne E source parsers).Whole source :=
  .of_exact ⟨rfl, rfl, fun _ _ ↦ Iff.rfl⟩ rfl rfl

/-- Over one template, the expression parsers are asked the same. -/
theorem answers_onOne {parser₁ : ExpressionParser σ₁ E} {parser₂ : ExpressionParser σ₂ E}
    (hp : ∀ mode rest p q, parsers p q →
      parsers (parser₁.parse mode rest p).2 (parser₂.parse mode rest q).2)
    (ht : ∀ mode rest p q, parsers p q →
      Call.taken? ⟨mode, rest, (parser₂.parse mode rest q).1⟩ =
        Call.taken? ⟨mode, rest, (parser₁.parse mode rest p).1⟩)
    (hb : ∀ mode rest p q, parsers p q → ((parser₂.parse mode rest q).1 = .brokeDown ↔
      (parser₁.parse mode rest p).1 = .brokeDown)) :
    (onOne E source parsers).Answers parser₁ parser₂ :=
  answers_exact rfl rfl rfl rfl hp ht hb

/-- Expression parsers that answer alike at every place of a template end alike. -/
theorem Answers.ends {parser₁ : ExpressionParser σ₁ E} {parser₂ : ExpressionParser σ₂ E}
    (h : (onOne E source parsers).Answers parser₁ parser₂) (hshape : parser₂.shape = parser₁.shape)
    (maxDepth : Nat) {p : σ₁} {q : σ₂} (hp : parsers p q) :
    (onOne E source parsers).Ends (readTemplate parser₁ maxDepth source p)
      (readTemplate parser₂ maxDepth source q) := by
  have hshapes : ∀ e : Embedded E,
      parser₂.shape ((onOne E source parsers).handle e) = parser₁.shape e.handle :=
    fun e ↦ congrFun hshape e.handle
  have hwrite : (onOne E source parsers).ending.write source = source := LineEnding.write_lf source
  have hg : (onOne E source parsers).Setups ⟨parser₁, maxDepth, source.length + 1⟩
      ⟨parser₂, maxDepth, ((onOne E source parsers).ending.write source).length + 1⟩ :=
    h.setups (fun e he ↦ .inl ((hshapes e).trans he)) (fun e he ↦ .inl ((hshapes e).symm.trans he))
      rfl (by rw [hwrite]) (.inr (by rw [hwrite]))
  have hends := readTemplate_ends onOne_whole hg hp (fun hl ↦ hl .stalled) fun _ _ ↦ False.elim
  rwa [hwrite] at hends

end OnOne

end Link

end Pug

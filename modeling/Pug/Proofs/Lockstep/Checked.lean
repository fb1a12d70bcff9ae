import Pug.Expression.Script
import Pug.Proofs.Template

/-!
# Checks beside the loose parser

A checked parser finds the extent of an expression as the loose one does, and may refuse it. What it
tells about an expression is used in one place only, the definition of a mixin. So a run with a check
goes as the loose run does, up to the first expression that the check refuses or the first definition
that only one of the two shapes makes invalid.

The two halves need different runs beside the checked one. Where the checked run succeeds, the loose
parser can only differ in a definition, which the tree then holds. Where it fails, it is compared to a
parser that tells of every expression that it is a name: that one goes on wherever the loose one does.
-/

namespace Pug

open Text Token Reader
open ExpressionParser (Call checked checkedAnswer loose recorded)

/-- What only a check can find wrong: an expression, or the definition of a mixin. -/
def Problem.OfCheck (problem : Problem) : Prop :=
  problem.OfExpression ∨ problem = .invalidMixinDefinition

/-- The same trees with something else told about their expressions. -/
def Recast.told {E₁ E₂ : Type} (f : Embedded E₁ → E₂) : Recast E₁ E₂ :=
  ⟨.lf, id, f⟩

/-- The shape that the loose parser tells of an expression. -/
def Embedded.looseShape {E : Type} (e : Embedded E) : Shape :=
  Shape.ofText e.text.toList

/-- The parser that finds the extents of expressions as the loose one does, and takes every
expression for a name. -/
def ExpressionParser.naming : ExpressionParser Unit Shape :=
  checked (fun _ ↦ .identifier) fun _ text ↦ some (Shape.ofText text)

namespace Link

variable {σ E E₁ E₂ : Type} {source : List Char}

theorem offset_told_add (f : Embedded E₁ → E₂) (before w : List Char) :
    (Recast.told f).offset (byteLength before + byteLength w) =
      (Recast.told f).offset (byteLength before) + byteLength ((Recast.told f).ending.write w) := by
  rw [show (Recast.told f).ending = .lf from rfl, LineEnding.write_lf]
  rfl

/-- Two runs over one template with different things told about expressions, where the second run may
go on behind some failures. -/
def telling (σ : Type) (f : Embedded E₁ → E₂) (source : List Char) (Excused : Failure → Prop) :
    Link σ Unit E₁ E₂ :=
  strict (.told f) source (.inl rfl) (fun before w _ _ ↦ offset_told_add f before w)
    (fun _ _ ↦ True) Excused

/-- Two runs over one template, of which the second rejects some definitions of mixins. -/
def rejecting (σ : Type) (f : Embedded E₁ → E₂) (source : List Char)
    (Rejected : Embedded E₁ → Prop) : Link σ Unit E₁ E₂ :=
  let L := telling σ f source fun _ ↦ True
  excusing L.toRecast source L.ends₁ L.ends₂ L.breaks L.followsLine L.feeds L.offset_add L.parsers Eq
    Rejected fun _ ↦ False

/-- A check that passes whatever another one passes takes the same texts. -/
theorem answers_checks {L : Link σ Unit E₁ E₂} {parser : ExpressionParser σ E₁}
    {check₁ : Mode → List Char → Option E₁} {check₂ : Mode → List Char → Option E₂}
    (shape : E₂ → Shape)
    (hparser : ∀ mode rest p, (parser.parse mode rest p).1 = checkedAnswer check₁ mode rest)
    (he : L.ending = .lf) (h₁ : L.ends₁ = []) (h₂ : L.ends₂ = []) (hp : ∀ p q, L.parsers p q)
    (hpass : ∀ mode c raw handle, check₁ mode (trim raw) = some handle →
      check₂ mode (trim raw) = some (L.handle (embed c raw handle)))
    (hrefuse : ∀ problem offset, problem.OfExpression → L.Excused (.error ⟨problem, offset, none⟩)) :
    L.Answers parser (checked shape check₂) where
  parsers _ _ _ := hp _ _
  taken := by
    intro mode c d p q handle text _ h _ ht
    obtain ⟨ha, hpos, others, ho⟩ := Call.taken?_eq_some ht
    refine ⟨h.word_of_exact h₁ ho, ?_⟩
    rw [he, Mode.write_lf, LineEnding.write_lf, h.rest_eq he h₁ h₂]
    dsimp only at ha ho
    rw [hparser, checkedAnswer] at ha
    refine Call.taken?_of_accepted ?_ hpos ho
    cases hx : extent mode c.rest with
    | absent => rw [hx] at ha; contradiction
    | torn => rw [hx] at ha; contradiction
    | upTo raw =>
      rw [hx] at ha
      dsimp only at ha
      cases hc : check₁ mode (trim raw) with
      | none => rw [hc] at ha; contradiction
      | some found =>
        rw [hc] at ha
        injection ha with hhandle hbytes
        subst hhandle
        -- The text that is taken is the one that the scan finds.
        obtain rfl : raw = text := by
          obtain ⟨more, hmore⟩ := exists_eq_append_of_extent hx
          rw [← firstBytes_append raw more, ← hmore, hbytes, ho, firstBytes_append]
        change checkedAnswer check₂ mode c.rest = _
        rw [checkedAnswer, hx]
        dsimp only
        rw [hpass mode c raw found hc]
  refused _ _ _ _ _ := .inl hrefuse
  brokeDown := by
    intro mode c d p q _ h _ hb
    right
    rw [he, Mode.write_lf, h.rest_eq he h₁ h₂]
    rw [hparser, checkedAnswer] at hb
    change checkedAnswer check₂ mode c.rest = _
    rw [checkedAnswer]
    cases hx : extent mode c.rest with
    | torn => rfl
    | absent => rw [hx] at hb; contradiction
    | upTo raw =>
      rw [hx] at hb
      dsimp only at hb
      split at hb <;> contradiction

section Runs

variable {f : Embedded E₁ → E₂} {root : Token E₁} {p : σ}
variable {parser₁ : ExpressionParser σ E₁} {parser₂ : ExpressionParser Unit E₂}

theorem telling_whole {Excused : Failure → Prop} : (telling σ f source Excused).Whole source :=
  .of_exact ⟨rfl, rfl, fun _ _ ↦ Iff.rfl⟩ rfl rfl

theorem rejecting_whole {Rejected : Embedded E₁ → Prop} :
    (rejecting σ f source Rejected).Whole source :=
  .of_exact ⟨rfl, rfl, fun _ _ ↦ Iff.rfl⟩ rfl rfl

/-- Where the second parser takes what the first one takes and rejects no other definitions, it
reads what the first one reads, and fails where the first fails unless that is excused. -/
theorem lex_of_answers {Excused : Failure → Prop} (maxDepth : Nat)
    (ha : (telling σ f source Excused).Answers parser₁ parser₂)
    (hrejects : ∀ e : Embedded E₁, parser₁.shape e.handle = .other → parser₂.shape (f e) = .other ∨
      ∀ offset, Excused (.error ⟨.invalidMixinDefinition, offset, none⟩))
    (haccepts : ∀ e : Embedded E₁, parser₂.shape (f e) = .other → parser₁.shape e.handle = .other)
    (hstalled : ¬∀ x, Excused x) (p : σ) :
    match lex parser₁ maxDepth source p with
    | .ok root => lex parser₂ maxDepth source () = .ok ((Recast.told f).token root)
    | .error x => Excused x ∨ ∃ x', lex parser₂ maxDepth source () = .error x' := by
  have hg : (telling σ f source Excused).Setups ⟨parser₁, maxDepth, source.length + 1⟩
      ⟨parser₂, maxDepth, (LineEnding.lf.write source).length + 1⟩ := by
    rw [LineEnding.write_lf]
    exact ha.setups hrejects (fun e h ↦ .inl (haccepts e h)) rfl (Nat.le_refl _) (.inr rfl)
  have hruns := readTemplate_runs (x := p) (y := ()) telling_whole hg trivial
  rw [show (telling σ f source Excused).ending.write source = source from LineEnding.write_lf _]
    at hruns
  unfold lex
  cases hr : readTemplate parser₁ maxDepth source p with
  | ok root t =>
    rw [hr] at hruns
    rcases hruns with ⟨_, _, _, hlost⟩ | ⟨v, hv, -⟩
    · exact absurd hlost.lenient hstalled
    · simp only [hv]
      rfl
  | error x t =>
    rw [hr] at hruns
    refine hruns.imp_right fun ⟨v, hv, _⟩ ↦ ?_
    simp only [hv]
    exact ⟨_, rfl⟩

end Runs

end Link

section Loose

variable {E : Type} {shape : E → Shape} {check : Mode → List Char → Option E} {maxDepth : Nat}
variable {source : List Char} {root : Token E}

/-- The loose parser passes every text, and tells its shape. -/
theorem looseShape_embed (c : Cursor) (raw : List Char) (handle : E) :
    (embed c raw handle).looseShape = Shape.ofText (trim raw) :=
  congrArg Shape.ofText String.toList_ofList

/-- Where a checked run rejects nothing that the loose shape would, the loose run reads the same. -/
theorem lex_loose_of_checked (h : lex (checked shape check) maxDepth source () = .ok root)
    (hm : ∀ t ∈ root.preorder, t.kind = .mixinDefinition →
      ∀ e ∈ t.expr, e.looseShape ≠ .other) :
    lex loose maxDepth source () = .ok ((Recast.told Embedded.looseShape).token root) := by
  let L : Link (Unit × List (Call E)) Unit E Shape :=
    .rejecting _ Embedded.looseShape source fun e ↦ e.looseShape = .other
  have hanswers : L.Answers (recorded (checked shape check)) loose :=
    Link.answers_checks id (fun _ _ _ ↦ rfl) rfl rfl rfl (fun _ _ ↦ trivial)
      (fun _ c raw handle _ ↦ congrArg some (looseShape_embed c raw handle).symm)
      fun _ _ _ ↦ trivial
  have hg : L.Setups ⟨recorded (checked shape check), maxDepth, source.length + 1⟩
      ⟨loose, maxDepth, (LineEnding.lf.write source).length + 1⟩ := by
    rw [LineEnding.write_lf]
    exact hanswers.setups (fun _ _ ↦ .inr fun _ ↦ trivial) (fun _ he ↦ .inr he) rfl (Nat.le_refl _)
      (.inl trivial)
  have hruns := Link.readTemplate_runs (x := ((), [])) (y := ()) Link.rejecting_whole hg trivial
  rw [show L.ending.write source = source from LineEnding.write_lf _] at hruns
  rw [← lex_recorded] at h
  unfold lex at h ⊢
  cases hr : readTemplate (recorded (checked shape check)) maxDepth source ((), []) with
  | error x t =>
    rw [hr] at h
    contradiction
  | ok root' t =>
    rw [hr] at h hruns
    cases h
    rcases hruns with ⟨page, hlines, rfl, hlost⟩ | ⟨v, hv, -⟩
    · obtain ⟨a, ha, b, hb, hkind, e, he, hother⟩ | ⟨_, _, hparts⟩ | ⟨hsevered, -⟩ := hlost
      · -- The tree holds the definition that the loose shape makes invalid.
        have hread := (Page.template_reads (checked shape check) maxDepth source ()).of_ok hlines
        obtain ⟨b', hb', hbare⟩ := hread.1.mem_finish ha hb
        have hk : b'.bare.kind = b.bare.kind := by rw [hbare]
        have hx : b'.bare.expr = b.bare.expr := by rw [hbare]
        exact absurd hother (hm b' hb' (hk.trans hkind) e ((show b'.expr = b.expr from hx) ▸ he))
      · exact hparts.elim
      · exact absurd hsevered (Link.rejecting_whole.not_severed _)
    · simp only [hv]
      rfl

/-- What a check finds wrong with a template that the loose parser reads is an expression or the
definition of a mixin. -/
theorem ofCheck_of_lex_loose {root : Token Shape} (h : lex loose maxDepth source () = .ok root)
    {x : Failure} (hx : lex (checked shape check) maxDepth source () = .error x) :
    ∃ e, x = .error e ∧ e.problem.OfCheck := by
  let Excused (x : Failure) : Prop := ∃ e, x = .error e ∧ e.problem.OfCheck
  have hrefuse : ∀ problem offset, problem.OfExpression →
      Excused (.error ⟨problem, offset, none⟩) := fun _ _ hp ↦ ⟨_, rfl, .inl hp⟩
  have hstalled : ¬∀ x, Excused x := fun hall ↦ by
    obtain ⟨e, he, -⟩ := hall .stalled
    contradiction
  have hparse (mode : Mode) (rest : List Char) (p : Unit) : (loose.parse mode rest p).1 =
      checkedAnswer (fun _ text ↦ some (Shape.ofText text)) mode rest := rfl
  have hloose : (Link.telling Unit (fun e : Embedded Shape ↦ e.looseShape) source Excused).Answers
      loose .naming :=
    Link.answers_checks _ hparse rfl rfl rfl (fun _ _ ↦ trivial)
      (fun _ c raw handle _ ↦ congrArg some (looseShape_embed c raw handle).symm) hrefuse
  have hnaming := Link.lex_of_answers maxDepth hloose (fun _ _ ↦ .inr fun _ ↦ ⟨_, rfl, .inr rfl⟩)
    (fun _ ↦ nofun) hstalled ()
  rw [h] at hnaming
  have hchecks : (Link.telling Unit (fun e : Embedded E ↦ e.looseShape) source Excused).Answers
      (checked shape check) .naming :=
    Link.answers_checks _ (fun _ _ _ ↦ rfl) rfl rfl rfl (fun _ _ ↦ trivial)
      (fun _ c raw handle _ ↦ congrArg some (looseShape_embed c raw handle).symm) hrefuse
  have hchecked := Link.lex_of_answers maxDepth hchecks (fun _ _ ↦ .inr fun _ ↦ ⟨_, rfl, .inr rfl⟩)
    (fun _ ↦ nofun) hstalled ()
  rw [hx] at hchecked
  refine hchecked.resolve_right ?_
  rintro ⟨x', hx'⟩
  rw [hx'] at hnaming
  contradiction

/-- Checking expressions refines reading them loosely, whatever the check and the shapes it tells. A
tree that is read with a check is the loose tree, unless it holds the definition of a mixin whose
loose shape is not that of a name or a call. And of a template that is read loosely, a check refuses
expressions and definitions of mixins only: it fails with nothing else. -/
theorem lex_checked_refines (shape : E → Shape) (check : Mode → List Char → Option E)
    (maxDepth : Nat) (source : List Char) :
    (∀ root, lex (checked shape check) maxDepth source () = .ok root →
      (∀ t ∈ root.preorder, t.kind = .mixinDefinition → ∀ e ∈ t.expr, e.looseShape ≠ .other) →
        lex loose maxDepth source () = .ok ((Recast.told Embedded.looseShape).token root)) ∧
      ∀ root x, lex loose maxDepth source () = .ok root →
        lex (checked shape check) maxDepth source () = .error x →
          ∃ e, x = .error e ∧ (e.problem = .invalidAttributeValue ∨
            (∃ site, e.problem = .invalidExpression site) ∨ e.problem = .invalidMixinDefinition) := by
  refine ⟨fun root h hm ↦ lex_loose_of_checked h hm, fun root x h hx ↦ ?_⟩
  obtain ⟨e, rfl, hp⟩ := ofCheck_of_lex_loose h hx
  exact ⟨e, rfl, or_assoc.1 hp⟩

/-- A mixin of JavaScript is read alike, and what is no JavaScript is an invalid expression. -/
theorem lex_checked_refines_script :
    (∃ root, lex .script 32 "mixin m(a)\n  p= a + 1".toList () = .ok root ∧
      lex loose 32 "mixin m(a)\n  p= a + 1".toList () =
        .ok ((Recast.told Embedded.looseShape).token root)) ∧
      ∃ root e, lex loose 32 "p= a b".toList () = .ok root ∧
        lex .script 32 "p= a b".toList () = .error (.error e) ∧
          (e.problem = .invalidAttributeValue ∨ (∃ site, e.problem = .invalidExpression site) ∨
            e.problem = .invalidMixinDefinition) := by
  obtain ⟨root, h, hall⟩ := exists_of_any (r := lex .script 32 "mixin m(a)\n  p= a + 1".toList ())
    (p := fun root ↦ root.preorder.all fun t ↦ t.kind != .mixinDefinition ||
      t.expr.all fun e ↦ e.looseShape != .other) (by decide +kernel)
  obtain ⟨root', h', -⟩ := exists_of_any (r := lex loose 32 "p= a b".toList ())
    (p := fun _ ↦ true) (by decide +kernel)
  obtain ⟨x, hx⟩ := exists_of_isNone (r := lex .script 32 "p= a b".toList ()) (by decide +kernel)
  refine ⟨⟨root, h, (lex_checked_refines Script.Node.shape Script.check 32 _).1 root h ?_⟩, ?_⟩
  · intro t ht hkind e he
    have hnot := List.all_eq_true.1 hall t ht
    rw [hkind, show t.expr = some e from he] at hnot
    simpa using hnot
  · obtain ⟨e, rfl, he⟩ := (lex_checked_refines Script.Node.shape Script.check 32 _).2 root' x h' hx
    exact ⟨root', e, h', hx, he⟩

end Loose

end Pug

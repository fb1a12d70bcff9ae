import Pug.Layout.Outline
import Pug.Proofs.Token.Leaves

/-!
# The grammar of trees

Which tokens may stand below which is told by their kinds, much as in a document type: a kind
allows certain rows of kinds as its children. Beyond that a token embeds an expression or does not,
the text of a tag is not empty, nothing in a run of text reaches beyond the run, and a line behind
which another one follows has no lines below it.

A token is *sound* if it and all tokens below it keep these rules. Soundness is put together from
the inside: a token that keeps the rules and has sound children is sound.
-/

namespace Pug.Token

variable {E : Type}

namespace Kind

/-- The parts of a tag that any others may follow. -/
def isTagPart : Kind → Bool
  | tagClassNote | tagIdNote | tagAttrList | tagAttributes => true
  | _ => false

/-- The parts that a tag ends in. A line ends it if one follows on the same line of the template. -/
def isTagEnding : Kind → Bool
  | linePlainText | outputEscaped | outputUnescaped | tagSelfClose | tagDotBlock | line => true
  | _ => false

/-- The pieces of a run of text. -/
def isPiece : Kind → Bool
  | plainText | outputEscaped | outputUnescaped | lineData => true
  | _ => false

/-- The entries of a list of attributes. -/
def isAttribute : Kind → Bool
  | attrPairEscaped | attrPairUnescaped => true
  | _ => false

/-- What a line may say. -/
def isPayload : Kind → Bool
  | lineData | linePlainText | lineRaw | lineDot | lineComment | lineCommentHtml | outputEscaped
  | outputUnescaped | controlIf | controlUnless | controlElseIf | controlElse | controlWhile
  | controlEach | controlEachPair | controlCase | controlWhen | controlDefault | codeLine
  | codeBlock | mixinCall | mixinDefinition | inclusion | doctype => true
  | _ => false

/-- Behind the parts of a tag comes one ending at most. -/
def endsTag (ks : List Kind) : Bool :=
  match ks.dropWhile isTagPart with
  | [] => true
  | [k] => k.isTagEnding
  | _ => false

/-- One line may follow, and nothing else. -/
def mayFollow (ks : List Kind) : Bool :=
  ks == [] || ks == [line]

/-- Whether the children of a token of a kind may be of these kinds. -/
def allows : Kind → List Kind → Bool
  | root, ks => ks.all (· == line)
  | line, k :: ks => k.isPayload && ks.all (· == line)
  | lineData, ks => ks == [tag]
  | tag, ks => endsTag ks
  | mixinCall, mixinArgs :: ks => endsTag ks
  | mixinCall, ks => endsTag ks
  | linePlainText, ks => ks.all isPiece
  | lineCommentHtml, ks => ks.all isPiece
  | lineComment, ks => ks == [] || ks == [plainText]
  | tagAttrList, ks => ks.all isAttribute
  | codeBlock, ks => ks.all (· == codeLine)
  | controlEach, eachVariable :: ks => mayFollow ks
  | controlEachPair, eachVariable :: eachVariable :: ks => mayFollow ks
  | controlIf, ks => mayFollow ks
  | controlUnless, ks => mayFollow ks
  | controlElseIf, ks => mayFollow ks
  | controlElse, ks => mayFollow ks
  | controlWhile, ks => mayFollow ks
  | controlCase, ks => mayFollow ks
  | controlWhen, ks => mayFollow ks
  | controlDefault, ks => mayFollow ks
  | mixinDefinition, ks => mayFollow ks
  | line, [] => false
  | controlEach, _ => false
  | controlEachPair, _ => false
  | _, ks => ks == []

/-- The kinds of the tokens around an expression. An attribute `name=value` is none of them, since
it may go without a value. -/
def embeds : Kind → Bool
  | outputEscaped | outputUnescaped | tagAttributes | mixinArgs | mixinDefinition | codeLine
  | attrPairUnescaped | controlIf | controlUnless | controlElseIf | controlWhile | controlCase
  | controlWhen | controlEach | controlEachPair => true
  | _ => false

/-- The tokens that a run of text is made up of. -/
def holdsText : Kind → Bool
  | linePlainText | lineCommentHtml => true
  | _ => false

/-- What carries the parts of a tag. -/
def isTagged : Kind → Bool
  | tag | mixinCall => true
  | _ => false

end Kind

/-- Another line follows the line that says this, on the same line of the template. -/
def CarriesLine (payload : Token E) : Prop :=
  (∃ u ∈ payload.children, u.kind = .line) ∨
    payload.kind = .lineData ∧ ∃ tag ∈ payload.children, ∃ u ∈ tag.children, u.kind = .line

/-- The rules that a token keeps. -/
structure KeepsRules (t : Token E) : Prop where
  /-- The children are of kinds that the token allows. -/
  children : t.kind.allows (t.children.map Token.kind) = true
  /-- An expression is embedded where the kind says so, and nowhere else. -/
  expr : t.kind ≠ .attrPairEscaped → t.expr.isSome = t.kind.embeds
  /-- The text of a tag is not empty. -/
  text : t.kind.isTagged = true → ∀ u ∈ t.children, u.kind = .linePlainText → u.children ≠ []
  /-- Nothing in a run of text makes the lines below it text, and no line follows there. -/
  inRun : t.kind.holdsText = true →
    ∀ u ∈ preorderAll t.children, u.kind ≠ .tagDotBlock ∧ u.kind ≠ .line
  /-- No line lies below a line that another one follows. -/
  follower : t.kind = .line → ∀ payload nested, t.children = payload :: nested →
    payload.CarriesLine → nested = []

/-- The token and all below it keep the rules. -/
def IsSound (t : Token E) : Prop :=
  ∀ u ∈ t.preorder, u.KeepsRules

/-- The token may stand in a run of text. -/
def IsInRun (t : Token E) : Prop :=
  ∀ u ∈ t.preorder, u.kind ≠ .tagDotBlock ∧ u.kind ≠ .line

section

variable {t line : Token E} {ts : List (Token E)} {e : Embedded E}

theorem forall_mem_preorderAll {P : Token E → Prop} :
    (∀ u ∈ preorderAll ts, P u) ↔ ∀ t ∈ ts, ∀ u ∈ t.preorder, P u := by
  induction ts with
  | nil => simp
  | cons t ts ih =>
    rw [preorderAll, List.forall_mem_append, List.forall_mem_cons, ih]

theorem isSound_iff : t.IsSound ↔ t.KeepsRules ∧ ∀ u ∈ t.children, u.IsSound := by
  rw [IsSound, preorder_eq, List.forall_mem_cons, forall_mem_preorderAll]
  rfl

theorem isInRun_iff : t.IsInRun ↔
    (t.kind ≠ .tagDotBlock ∧ t.kind ≠ .line) ∧ ∀ u ∈ t.children, u.IsInRun := by
  rw [IsInRun, preorder_eq, List.forall_mem_cons, forall_mem_preorderAll]
  rfl

/-- A token that is no line, no tag and no run of text keeps the rules if its children are of the
right kinds and it embeds an expression where its kind says so. -/
theorem KeepsRules.of_allows (hc : t.kind.allows (t.children.map Token.kind) = true)
    (he : t.kind ≠ .attrPairEscaped → t.expr.isSome = t.kind.embeds)
    (htag : t.kind.isTagged = false) (hrun : t.kind.holdsText = false) (hl : t.kind ≠ .line) :
    t.KeepsRules where
  children := hc
  expr := he
  text h := absurd (h.symm.trans htag) (by decide)
  inRun h := absurd (h.symm.trans hrun) (by decide)
  follower h := absurd h hl

/-- A token without children that embeds no expression. -/
theorem isSound_leaf {kind : Kind} (hc : kind.allows [] = true) (he : kind.embeds = false)
    (text : String) (span : Span) : (leaf kind text span : Token E).IsSound := by
  have hl : kind ≠ .line := by
    rintro rfl
    contradiction
  refine isSound_iff.2 ⟨⟨hc, fun _ ↦ he.symm, fun _ ↦ ?_, fun _ ↦ ?_, fun h ↦ absurd h hl⟩, ?_⟩
  · exact List.forall_mem_nil _
  · simp [leaf]
  · exact List.forall_mem_nil _

/-- A token without children around an expression. -/
theorem isSound_value {kind : Kind} (hc : kind.allows [] = true)
    (he : kind = .attrPairEscaped ∨ kind.embeds = true) (text : String) (span : Span)
    (e : Embedded E) : ((leaf kind text span).withExpr e).IsSound := by
  have hl : kind ≠ .line := by
    rintro rfl
    contradiction
  refine isSound_iff.2 ⟨⟨hc, fun h ↦ ?_, fun _ ↦ ?_, fun _ ↦ ?_, fun h ↦ absurd h hl⟩, ?_⟩
  · exact (he.resolve_left h).symm
  · exact List.forall_mem_nil _
  · simp [leaf, withExpr]
  · exact List.forall_mem_nil _

/-- The parts of a tag, with or without arguments before them, make a sound token. -/
theorem isSound_tagged (hk : t.kind.isTagged = true) (hc : t.kind.allows (t.children.map Token.kind) = true)
    (he : t.expr = none) (hs : ∀ u ∈ t.children, u.IsSound)
    (htext : ∀ u ∈ t.children, u.kind = .linePlainText → u.children ≠ []) : t.IsSound := by
  have hkind : t.kind ≠ .line ∧ t.kind.holdsText = false ∧ t.kind.embeds = false := by
    cases h : t.kind <;> rw [h] at hk <;> first | contradiction | decide
  refine isSound_iff.2 ⟨⟨hc, fun _ ↦ ?_, fun _ ↦ htext, fun h ↦ ?_, fun h ↦ absurd h hkind.1⟩, hs⟩
  · rw [he, hkind.2.2]
    rfl
  · rw [hkind.2.1] at h
    contradiction

/-- A tag in its wrapper. -/
theorem isSound_wrapped {tag : Token E} (hk : t.kind = .lineData) (hc : t.children = [tag])
    (he : t.expr = none) (htag : tag.kind = .tag) (h : tag.IsSound) : t.IsSound := by
  refine isSound_iff.2 ⟨.of_allows ?_ ?_ ?_ ?_ ?_, ?_⟩
  · rw [hk, hc, List.map_singleton, htag]
    rfl
  · rw [hk, he]
    exact fun _ ↦ rfl
  · rw [hk]
    rfl
  · rw [hk]
    rfl
  · rw [hk]
    decide
  · rw [hc]
    exact List.forall_mem_singleton.2 h

/-- A run of text is sound if its pieces are sound and stay in the run. -/
theorem isSound_run (hk : t.kind.holdsText = true) (he : t.expr = none)
    (hp : ∀ u ∈ t.children, u.kind.isPiece = true)
    (hs : ∀ u ∈ t.children, u.IsSound) (hr : ∀ u ∈ t.children, u.IsInRun) : t.IsSound := by
  have hkind : t.kind.isTagged = false ∧ t.kind ≠ .line ∧ t.kind.embeds = false ∧
      ∀ ks, t.kind.allows ks = ks.all Kind.isPiece := by
    cases h : t.kind <;> rw [h] at hk <;> first | contradiction | skip
    · exact ⟨rfl, by decide, rfl, fun _ ↦ rfl⟩
    · exact ⟨rfl, by decide, rfl, fun _ ↦ rfl⟩
  refine isSound_iff.2 ⟨⟨?_, fun _ ↦ ?_, fun h ↦ ?_, fun _ ↦ ?_, fun h ↦ absurd h hkind.2.1⟩, hs⟩
  · rw [hkind.2.2.2, List.all_map, List.all_eq_true]
    exact hp
  · rw [he, hkind.2.2.1]
    rfl
  · rw [hkind.1] at h
    contradiction
  · exact forall_mem_preorderAll.2 hr

end

end Pug.Token

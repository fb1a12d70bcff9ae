import Pug.Proofs.Reader.Ensures
import Pug.Proofs.Source.Path
import Pug.Proofs.Text.LineAhead
import Pug.Proofs.Token.Recast

/-!
# Two runs in lockstep

A *link* relates a run of a reader to another run of it. The two templates have a *body* in common,
which the second may have further on and with other line endings; behind the body the first has line
breaks at most, and the second what may follow a line. The two runs may ask different expression
parsers and know different units of indentation.

`Link.Rel` lifts a relation between results to readers: from related states, whatever the first run
reads the second reads as well, and the states are related again; where the first run fails, so does
the second, unless the failure is *excused*. All failures are, where more than line breaks may follow
the body in the second template.

The relation is kept by sequences, choices and rows, so that a reader is related to itself step by
step. It comes down to two things: what a reader asks of the text is answered by the line, and what
it asks of the expression parser is answered alike.
-/

namespace Pug

open Text Token

/-- The problems with an expression that is not there. -/
def Problem.OfExpression (problem : Problem) : Prop :=
  problem = .invalidAttributeValue ∨ ∃ site, problem = .invalidExpression site

/-- The mode for a text with another line ending. -/
def Mode.write (ending : LineEnding) : Mode → Mode
  | .statement lineBreak => .statement (ending.write lineBreak)
  | mode => mode

@[simp] theorem Mode.write_lf (mode : Mode) : mode.write .lf = mode := by
  cases mode <;> simp [Mode.write]

/-- How a run of readers corresponds to another. -/
structure Link (σ₁ σ₂ E₁ E₂ : Type) extends Recast E₁ E₂ where
  /-- What the two templates have in common, as the first one has it. -/
  body : List Char
  /-- What follows the body in the first template. -/
  ends₁ : List Char
  /-- What follows the body in the second template. -/
  ends₂ : List Char
  breaks : ∀ x ∈ ends₁, isBreak x = true
  followsLine : FollowsLine ends₂
  /-- Only line feeds are written otherwise. -/
  feeds : ending = .lf ∨ '\r' ∉ body
  offset_add : ∀ before w after, body = before ++ (w ++ after) →
    offset (byteLength before + byteLength w) =
      offset (byteLength before) + byteLength (ending.write w)
  /-- The corresponding states of the expression parsers. -/
  parsers : σ₁ → σ₂ → Prop
  /-- The corresponding units of indentation. -/
  units : Option IndentUnit → Option IndentUnit → Prop
  /-- The failures of the first run behind which the second may go on. -/
  Excused : Failure → Prop
  /-- The definitions of mixins that only the second run rejects. -/
  Rejected : Embedded E₁ → Prop
  /-- The units that the second run does not learn where the first one does. -/
  Parts : IndentUnit → Prop
  breaks_or_excused : (∀ x ∈ ends₂, isBreak x = true) ∨ ∀ f, Excused f
  excused_of_rejected : ∀ e, Rejected e → ∀ f, Excused f
  excused_of_parts : ∀ unit, Parts unit → ∀ f, Excused f

namespace Link

variable {σ₁ σ₂ E₁ E₂ α β γ δ : Type} {L : Link σ₁ σ₂ E₁ E₂}

/-- Behind the body alone nothing follows. -/
theorem isBreak_of_mem_nil : ∀ x ∈ ([] : List Char), isBreak x = true :=
  nofun

/-- Two runs over a body with nothing but line breaks behind it, which know the same units and accept
the same mixins. -/
def bare (R : Recast E₁ E₂) (body ends₁ ends₂ : List Char) (breaks₁ : ∀ x ∈ ends₁, isBreak x = true)
    (breaks₂ : ∀ x ∈ ends₂, isBreak x = true) (feeds : R.ending = .lf ∨ '\r' ∉ body)
    (offset_add : ∀ before w after, body = before ++ (w ++ after) →
      R.offset (byteLength before + byteLength w) =
        R.offset (byteLength before) + byteLength (R.ending.write w))
    (parsers : σ₁ → σ₂ → Prop) (Excused : Failure → Prop) : Link σ₁ σ₂ E₁ E₂ where
  toRecast := R
  body := body
  ends₁ := ends₁
  ends₂ := ends₂
  breaks := breaks₁
  followsLine := Extent.Scan.followsLine_of_breaks breaks₂
  feeds := feeds
  offset_add := offset_add
  parsers := parsers
  units := Eq
  Excused := Excused
  Rejected _ := False
  Parts _ := False
  breaks_or_excused := .inl breaks₂
  excused_of_rejected _ := False.elim
  excused_of_parts _ := False.elim

/-- Two runs over the body alone, which know the same units and accept the same mixins. -/
def strict (R : Recast E₁ E₂) (body : List Char) (feeds : R.ending = .lf ∨ '\r' ∉ body)
    (offset_add : ∀ before w after, body = before ++ (w ++ after) →
      R.offset (byteLength before + byteLength w) =
        R.offset (byteLength before) + byteLength (R.ending.write w))
    (parsers : σ₁ → σ₂ → Prop) (Excused : Failure → Prop) : Link σ₁ σ₂ E₁ E₂ :=
  bare R body [] [] isBreak_of_mem_nil isBreak_of_mem_nil feeds offset_add parsers Excused

/-- Two runs of which the second may go on wherever the first fails. -/
def excusing (R : Recast E₁ E₂) (body ends₁ ends₂ : List Char)
    (breaks : ∀ x ∈ ends₁, isBreak x = true) (followsLine : FollowsLine ends₂)
    (feeds : R.ending = .lf ∨ '\r' ∉ body)
    (offset_add : ∀ before w after, body = before ++ (w ++ after) →
      R.offset (byteLength before + byteLength w) =
        R.offset (byteLength before) + byteLength (R.ending.write w))
    (parsers : σ₁ → σ₂ → Prop) (units : Option IndentUnit → Option IndentUnit → Prop)
    (Rejected : Embedded E₁ → Prop) (Parts : IndentUnit → Prop) : Link σ₁ σ₂ E₁ E₂ where
  toRecast := R
  body := body
  ends₁ := ends₁
  ends₂ := ends₂
  breaks := breaks
  followsLine := followsLine
  feeds := feeds
  offset_add := offset_add
  parsers := parsers
  units := units
  Excused _ := True
  Rejected := Rejected
  Parts := Parts
  breaks_or_excused := .inr fun _ ↦ trivial
  excused_of_rejected _ _ _ := trivial
  excused_of_parts _ _ _ := trivial

/-- Both templates end with the body. -/
structure Alone (L : Link σ₁ σ₂ E₁ E₂) : Prop where
  ends₁ : L.ends₁ = []
  ends₂ : L.ends₂ = []

/-- Both runs are over the body alone, and know the same units. -/
structure Exact (L : Link σ₁ σ₂ E₁ E₂) : Prop where
  ends₁ : L.ends₁ = []
  ends₂ : L.ends₂ = []
  units : ∀ a b, L.units a b ↔ a = b

/-- All failures of the first run are excused. -/
def Lenient (L : Link σ₁ σ₂ E₁ E₂) : Prop :=
  ∀ f, L.Excused f

theorem breaks_or_lenient (L : Link σ₁ σ₂ E₁ E₂) : (∀ x ∈ L.ends₂, isBreak x = true) ∨ L.Lenient :=
  L.breaks_or_excused

/-- A text of the body stands in front of corresponding places. -/
def Words (L : Link σ₁ σ₂ E₁ E₂) (w : List Char) (c d : Cursor) : Prop :=
  ∃ before after, L.body = before ++ (w ++ after) ∧
    c = ⟨byteLength before, w ++ (after ++ L.ends₁)⟩ ∧
    d = ⟨L.offset (byteLength before), L.ending.write w ++ (L.ending.write after ++ L.ends₂)⟩

/-- A place of the body in the first template and the corresponding one in the second. -/
def Places (L : Link σ₁ σ₂ E₁ E₂) (c d : Cursor) : Prop :=
  L.Words [] c d

/-- Corresponding states of the two runs. -/
structure States (L : Link σ₁ σ₂ E₁ E₂) (s : ReadState σ₁) (u : ReadState σ₂) : Prop where
  places : L.Places s.cursor u.cursor
  parsers : L.parsers s.parser u.parser
  units : L.units s.unit u.unit

section Places

variable {c d c' d' : Cursor} {v w rest : List Char}

theorem followsLine₁ (L : Link σ₁ σ₂ E₁ E₂) : FollowsLine L.ends₁ :=
  Extent.Scan.followsLine_of_breaks L.breaks

namespace Words

/-- A text is passed piece by piece. -/
theorem past_left (h : L.Words (v ++ w) c d) :
    L.Words w (c.past v) (d.past (L.ending.write v)) := by
  obtain ⟨before, after, hbody, rfl, rfl⟩ := h
  refine ⟨before ++ v, after, ?_, ?_, ?_⟩
  · rw [hbody, List.append_assoc, List.append_assoc]
  · refine Cursor.Leads.past_eq ⟨by simp, ?_⟩
    rw [byteLength_append]
  · refine Cursor.Leads.past_eq ⟨by simp, ?_⟩
    rw [byteLength_append]
    refine L.offset_add before v (w ++ after) ?_
    rw [hbody, List.append_assoc]

theorem left (h : L.Words (v ++ w) c d) : L.Words v c d := by
  obtain ⟨before, after, hbody, rfl, rfl⟩ := h
  exact ⟨before, w ++ after, by simpa using hbody, by simp, by simp⟩

theorem places (h : L.Words w c d) : L.Places c d :=
  left (v := []) h

theorem past (h : L.Words w c d) : L.Places (c.past w) (d.past (L.ending.write w)) :=
  past_left (w := []) (by simpa using h)

theorem leads (h : L.Words w c d) : c.Leads w (c.past w) := by
  obtain ⟨before, after, -, rfl, -⟩ := h
  exact Cursor.leads_past rfl

theorem leads_write (h : L.Words w c d) :
    d.Leads (L.ending.write w) (d.past (L.ending.write w)) := by
  obtain ⟨before, after, -, -, rfl⟩ := h
  exact Cursor.leads_past rfl

end Words

namespace Places

theorem offset_eq (h : L.Places c d) : d.offset = L.offset c.offset := by
  obtain ⟨before, after, -, rfl, rfl⟩ := h
  rfl

/-- A text without line breaks that stands in front stands in the body. -/
theorem word (h : L.Places c d) (hr : c.rest = w ++ rest) (hw : ∀ x ∈ w, isBreak x = false) :
    L.Words w c d := by
  obtain ⟨before, after, hbody, rfl, rfl⟩ := h
  replace hr : after ++ L.ends₁ = w ++ rest := hr
  rcases List.append_eq_append_iff.1 hr with ⟨ends, rfl, hends⟩ | ⟨others, rfl, -⟩
  · -- What is not in the body would be line breaks.
    have hnil : ends = [] := by
      refine List.eq_nil_iff_forall_not_mem.2 fun x hx ↦ ?_
      have hb := L.breaks x (by rw [hends]; exact List.mem_append_left _ hx)
      rw [hw x (List.mem_append_right _ hx)] at hb
      contradiction
    subst hnil
    exact ⟨before, [], by simpa using hbody, by simp, by simp⟩
  · exact ⟨before, others, by simpa using hbody, by simp, by simp⟩

/-- Over the body alone, whatever stands in front stands in the body. -/
theorem word_of_exact (h : L.Places c d) (hL : L.ends₁ = []) (hr : c.rest = w ++ rest) :
    L.Words w c d := by
  obtain ⟨before, after, hbody, rfl, rfl⟩ := h
  replace hr : after ++ L.ends₁ = w ++ rest := hr
  rw [hL, List.append_nil] at hr
  subst hr
  exact ⟨before, rest, by simpa using hbody, by simp, by simp⟩

/-- The second template has the same line there. -/
theorem line_eq (h : L.Places c d) : d.line = c.line := by
  obtain ⟨before, after, -, rfl, rfl⟩ := h
  simp only [Cursor.line, LineEnding.write_nil, List.nil_append]
  rw [firstLine_append L.followsLine, firstLine_append L.followsLine₁, LineEnding.firstLine_write]

/-- What the line answers is answered alike. -/
theorem ask (h : L.Places c d) {q : List Char → α} (hq : OnLine q) : q d.rest = q c.rest :=
  hq.eq h.line_eq

theorem atLineEnd (h : L.Places c d) : d.atLineEnd = c.atLineEnd :=
  h.ask (q := fun cs ↦ cs.head?.all isBreak) fun _ hm ↦ all_head?_append hm rfl rfl

theorem head?_eq_some (h : L.Places c d) {x : Char} (hx : isBreak x = false) :
    d.rest.head? = some x ↔ c.rest.head? = some x := by
  have ha := h.ask (q := fun cs ↦ cs.head? == some x) fun more hm cs ↦ by
    rw [Bool.eq_iff_iff, beq_iff_eq, beq_iff_eq]
    exact head?_append_eq_some hm hx cs
  rwa [Bool.eq_iff_iff, beq_iff_eq, beq_iff_eq] at ha

theorem atRunEnd (h : L.Places c d) (interpolated : Bool) :
    d.atRunEnd interpolated = c.atRunEnd interpolated := by
  have hb : (d.rest.head? == some ']') = (c.rest.head? == some ']') := by
    rw [Bool.eq_iff_iff, beq_iff_eq, beq_iff_eq]
    exact h.head?_eq_some rfl
  rw [Cursor.atRunEnd, Cursor.atRunEnd, h.atLineEnd, hb]

theorem atBlankLine (h : L.Places c d) : d.atBlankLine = c.atBlankLine := by
  rw [Cursor.atBlankLine, Cursor.atBlankLine, h.line_eq]

theorem startsWith (h : L.Places c d) {word : String} (hw : word.toList.any isBreak = false) :
    d.startsWith word = c.startsWith word :=
  h.ask fun _ hm ↦ isPrefixOf_append hm hw

/-- The place behind a text without line breaks. -/
theorem past (h : L.Places c d) (hr : c.rest = w ++ rest) (hw : ∀ x ∈ w, isBreak x = false) :
    L.Places (c.past w) (d.past w) := by
  have := (h.word hr hw).past
  rwa [LineEnding.write_of_unbroken hw] at this

theorem skipWhile (h : L.Places c d) {p : Char → Bool} (hn : p '\n' = false)
    (hr : p '\r' = false) : L.Places (c.skipWhile p) (d.skipWhile p) := by
  have hw : d.rest.takeWhile p = c.rest.takeWhile p := h.ask fun _ hm ↦ takeWhile_append hm hn hr
  rw [Cursor.skipWhile, Cursor.skipWhile, hw]
  refine h.past (List.takeWhile_append_dropWhile (p := p)).symm fun x hx ↦ ?_
  have hp : p x = true := List.mem_takeWhile_imp hx
  by_contra hb
  rw [Bool.not_eq_false, isBreak, Bool.or_eq_true, beq_iff_eq, beq_iff_eq] at hb
  rcases hb with rfl | rfl <;> simp_all

theorem skipSpacing (h : L.Places c d) : L.Places c.skipSpacing d.skipSpacing :=
  h.skipWhile rfl rfl

theorem lineEnd (h : L.Places c d) : L.Places c.lineEnd d.lineEnd := by
  rw [Cursor.lineEnd, Cursor.lineEnd, h.line_eq]
  refine h.past c.leads_lineEnd.1 fun x hx ↦ ?_
  simpa using List.mem_takeWhile_imp hx

/-- Between two places stands a text of the body. -/
theorem between (h : L.Places c d) (h' : L.Places c' d') (hle : c.offset ≤ c'.offset) :
    ∃ w, L.Words w c d ∧ c' = c.past w ∧ d' = d.past (L.ending.write w) := by
  obtain ⟨before, after, hbody, rfl, rfl⟩ := h
  obtain ⟨before', after', hbody', rfl, rfl⟩ := h'
  rw [List.nil_append] at hbody hbody'
  rw [hbody] at hbody'
  replace hle : byteLength before ≤ byteLength before' := hle
  suffices hw : ∃ w, before' = before ++ w ∧ after = w ++ after' by
    obtain ⟨w, rfl, rfl⟩ := hw
    have hwords : L.Words w ⟨byteLength before, [] ++ (w ++ after' ++ L.ends₁)⟩
        ⟨L.offset (byteLength before), L.ending.write [] ++
          (L.ending.write (w ++ after') ++ L.ends₂)⟩ :=
      ⟨before, after', hbody, by simp, by simp⟩
    refine ⟨w, hwords, (Cursor.Leads.past_eq ⟨by simp, ?_⟩).symm,
      (Cursor.Leads.past_eq ⟨by simp, ?_⟩).symm⟩
    · rw [byteLength_append]
    · rw [byteLength_append]
      exact L.offset_add before w after' hbody
  rcases List.append_eq_append_iff.1 hbody' with ⟨w, hb, ha⟩ | ⟨w, hb, ha⟩
  · exact ⟨w, hb, ha⟩
  · have hnil : w = [] := by
      rw [hb, byteLength_append] at hle
      exact byteLength_eq_zero.1 (by omega)
    subst hnil
    exact ⟨[], by simpa using hb.symm, by simpa using ha.symm⟩

/-- Places are in the same order in both templates. -/
theorem offset_lt (h : L.Places c d) (h' : L.Places c' d') (hlt : c.offset < c'.offset) :
    d.offset < d'.offset := by
  obtain ⟨w, hw, rfl, rfl⟩ := h.between h' (Nat.le_of_lt hlt)
  rw [hw.leads.2] at hlt
  rw [hw.leads_write.2]
  have hne : byteLength (L.ending.write w) ≠ 0 := by
    rw [ne_eq, byteLength_eq_zero, LineEnding.write_eq_nil]
    rintro rfl
    rw [byteLength_nil] at hlt
    omega
  omega

end Places

/-- A tree of the first run, and the same tree in the second. -/
abbrev Tokens (L : Link σ₁ σ₂ E₁ E₂) (a : Token E₁) (b : Token E₂) : Prop :=
  b = L.token a

/-- Trees of the first run, and the same trees in the second. -/
abbrev TokenLists (L : Link σ₁ σ₂ E₁ E₂) (as : List (Token E₁)) (bs : List (Token E₂)) : Prop :=
  bs = L.tokens as

/-- The bytes of a text of the body. -/
theorem Words.span_eq (h : L.Words w c d) :
    L.span ⟨c.offset, c.offset + byteLength w⟩ =
      ⟨d.offset, d.offset + byteLength (L.ending.write w)⟩ := by
  have hoffset := h.past.offset_eq
  rw [h.leads.2, h.leads_write.2] at hoffset
  rw [Recast.span, hoffset, ← h.places.offset_eq]

theorem Words.ofText (h : L.Words w c d) (kind : Kind) :
    L.Tokens (ofText kind c w) (ofText kind d (L.ending.write w)) := by
  rw [Tokens, Token.ofText, Token.ofText, Recast.token_leaf, h.span_eq, Recast.text_ofList]

/-- A token of a text without line breaks. -/
theorem Places.ofText (h : L.Places c d) (hr : c.rest = w ++ rest)
    (hw : ∀ x ∈ w, isBreak x = false) (kind : Kind) :
    L.Tokens (Token.ofText kind c w) (Token.ofText kind d w) := by
  have := (h.word hr hw).ofText kind
  rwa [LineEnding.write_of_unbroken hw] at this

end Places

/-- Both runs fail, and what is wrong with the first template is wrong at a place of the body. Where
both templates end with the body, they fail in corresponding states. -/
structure Stops (L : Link σ₁ σ₂ E₁ E₂) (f : Failure) (t : ReadState σ₁) (v : ReadState σ₂) : Prop where
  states : L.Alone → L.States t v
  place : ∀ e, f = .error e → ∃ c d, L.Places c d ∧ c.offset = e.offset

/-- Run side by side, the first reader from `s` and the second from `u`: what the first ends with,
the second ends with something that corresponds, unless the first is lost for the comparison. -/
def RunsUnless (L : Link σ₁ σ₂ E₁ E₂) (lost : α → ReadState σ₁ → Prop) (m₁ : Reader σ₁ α)
    (s : ReadState σ₁) (m₂ : Reader σ₂ β) (u : ReadState σ₂)
    (T : α → ReadState σ₁ → β → ReadState σ₂ → Prop) : Prop :=
  match m₁ s with
  | .ok a t => lost a t ∨ ∃ b v, m₂ u = .ok b v ∧ T a t b v
  | .error f t => L.Excused f ∨ ∃ v, m₂ u = .error (L.failure f) v ∧ L.Stops f t v

/-- What the first reader ends with, the second ends with something that corresponds. -/
abbrev RunsTo (L : Link σ₁ σ₂ E₁ E₂) (m₁ : Reader σ₁ α) (s : ReadState σ₁) (m₂ : Reader σ₂ β)
    (u : ReadState σ₂) (T : α → ReadState σ₁ → β → ReadState σ₂ → Prop) : Prop :=
  L.RunsUnless (fun _ _ ↦ False) m₁ s m₂ u T

/-- Lifts a relation between results to readers, the first of which may be lost. -/
def RelUnless (L : Link σ₁ σ₂ E₁ E₂) (lost : α → ReadState σ₁ → Prop) (R : α → β → Prop)
    (m₁ : Reader σ₁ α) (m₂ : Reader σ₂ β) : Prop :=
  ∀ s u, L.States s u → L.RunsUnless lost m₁ s m₂ u fun a t b v ↦ R a b ∧ L.States t v

/-- Lifts a relation between results to readers. -/
abbrev Rel (L : Link σ₁ σ₂ E₁ E₂) (R : α → β → Prop) (m₁ : Reader σ₁ α) (m₂ : Reader σ₂ β) : Prop :=
  L.RelUnless (fun _ _ ↦ False) R m₁ m₂

section Runs

variable {m₁ : Reader σ₁ α} {m₂ : Reader σ₂ β} {s : ReadState σ₁} {u : ReadState σ₂}
variable {lost lost' : α → ReadState σ₁ → Prop} {T T' : α → ReadState σ₁ → β → ReadState σ₂ → Prop}

theorem RunsUnless.congr {n₁ : Reader σ₁ α} {n₂ : Reader σ₂ β} (h : L.RunsUnless lost n₁ s n₂ u T)
    (h₁ : m₁ s = n₁ s) (h₂ : m₂ u = n₂ u) : L.RunsUnless lost m₁ s m₂ u T := by
  unfold RunsUnless
  rw [h₁, h₂]
  exact h

theorem RunsUnless.mono_lost (h : L.RunsUnless lost m₁ s m₂ u T)
    (hl : ∀ a t, lost a t → lost' a t)
    (hT : ∀ a t b v, T a t b v → T' a t b v) : L.RunsUnless lost' m₁ s m₂ u T' := by
  unfold RunsUnless at h ⊢
  split
  · rename_i hm
    rw [hm] at h
    exact h.imp (hl _ _) fun ⟨b, v, hb, ht⟩ ↦ ⟨b, v, hb, hT _ _ _ _ ht⟩
  · rename_i hm
    rw [hm] at h
    exact h

theorem RunsUnless.mono (h : L.RunsTo m₁ s m₂ u T) (hT : ∀ a t b v, T a t b v → T' a t b v) :
    L.RunsUnless lost' m₁ s m₂ u T' :=
  h.mono_lost (fun _ _ ↦ False.elim) hT

/-- What is known of all that the first run ends with. -/
theorem RunsUnless.of_ensures {post : α → ReadState σ₁ → Prop} (h : L.RunsUnless lost m₁ s m₂ u T)
    (hp : m₁.Ensures s post fun _ _ ↦ True) :
    L.RunsUnless (fun a t ↦ lost a t ∧ post a t) m₁ s m₂ u fun a t b v ↦ post a t ∧ T a t b v := by
  unfold RunsUnless at h ⊢
  unfold Reader.Ensures at hp
  split
  · rename_i hm
    rw [hm] at h hp
    exact h.imp (⟨·, hp⟩) fun ⟨b, v, hb, ht⟩ ↦ ⟨b, v, hb, hp, ht⟩
  · rename_i hm
    rw [hm] at h
    exact h

/-- The first run reads something, and is lost; or it fails, and is excused. -/
theorem RunsUnless.of_lost (h : m₁.Ensures s lost fun f _ ↦ L.Excused f) :
    L.RunsUnless lost m₁ s m₂ u T := by
  unfold Reader.Ensures at h
  unfold RunsUnless
  split
  · rename_i hm
    rw [hm] at h
    exact .inl h
  · rename_i hm
    rw [hm] at h
    exact .inl h

/-- Where all failures are excused, only what the first run reads matters. -/
theorem Lenient.ensures {post : α → ReadState σ₁ → Prop} (h : L.Lenient)
    (hp : ∀ a t, m₁ s = .ok a t → post a t) : m₁.Ensures s post fun f _ ↦ L.Excused f := by
  unfold Reader.Ensures
  split
  · rename_i hm
    exact hp _ _ hm
  · exact h _

theorem RunsUnless.bind_lost {k₁ : α → Reader σ₁ γ} {k₂ : β → Reader σ₂ δ}
    {lost' : γ → ReadState σ₁ → Prop} {T' : γ → ReadState σ₁ → δ → ReadState σ₂ → Prop}
    (h : L.RunsUnless lost m₁ s m₂ u T)
    (hk : ∀ a t b v, T a t b v → L.RunsUnless lost' (k₁ a) t (k₂ b) v T')
    (hl : ∀ a t, lost a t → (k₁ a).Ensures t lost' fun f _ ↦ L.Excused f) :
    L.RunsUnless lost' (m₁ >>= k₁) s (m₂ >>= k₂) u T' := by
  cases hm : m₁ s with
  | ok a t =>
    unfold RunsUnless at h
    rw [hm] at h
    rcases h with h | ⟨b, v, hb, ht⟩
    · have hlost : L.RunsUnless lost' (k₁ a) t (m₂ >>= k₂) u T' := .of_lost (hl a t h)
      unfold RunsUnless at hlost ⊢
      rwa [Reader.bind_of_ok hm]
    · have hk := hk a t b v ht
      unfold RunsUnless at hk ⊢
      rwa [Reader.bind_of_ok hm, Reader.bind_of_ok hb]
  | error f t =>
    unfold RunsUnless at h ⊢
    rw [hm] at h
    rw [Reader.bind_of_error hm]
    exact h.imp_right fun ⟨v, hv, ht⟩ ↦ ⟨v, Reader.bind_of_error hv, ht⟩

theorem RunsUnless.bind {k₁ : α → Reader σ₁ γ} {k₂ : β → Reader σ₂ δ}
    {lost' : γ → ReadState σ₁ → Prop} {T' : γ → ReadState σ₁ → δ → ReadState σ₂ → Prop}
    (h : L.RunsTo m₁ s m₂ u T)
    (hk : ∀ a t b v, T a t b v → L.RunsUnless lost' (k₁ a) t (k₂ b) v T') :
    L.RunsUnless lost' (m₁ >>= k₁) s (m₂ >>= k₂) u T' :=
  h.bind_lost hk fun _ _ ↦ False.elim

end Runs

section Rel

variable {R : α → β → Prop} {S : γ → δ → Prop} {m₁ n₁ : Reader σ₁ α} {m₂ n₂ : Reader σ₂ β}
variable {lost : α → ReadState σ₁ → Prop} {lost' : γ → ReadState σ₁ → Prop}

namespace RelUnless

theorem pure {a : α} {b : β} (h : R a b) : L.RelUnless lost R (pure a) (pure b) :=
  fun _ u hs ↦ .inr ⟨b, u, rfl, h, hs⟩

theorem ite {p q : Prop} [Decidable p] [Decidable q] (h : q ↔ p) (ht : p → L.RelUnless lost R m₁ m₂)
    (hf : ¬p → L.RelUnless lost R n₁ n₂) :
    L.RelUnless lost R (if p then m₁ else n₁) (if q then m₂ else n₂) := by
  by_cases hp : p
  · rw [if_pos hp, if_pos (h.2 hp)]
    exact ht hp
  · rw [if_neg hp, if_neg (mt h.1 hp)]
    exact hf hp

theorem throw {f f' : Failure} (h : f' = L.failure f)
    (hp : ∀ e, f = .error e → ∃ c d, L.Places c d ∧ c.offset = e.offset) :
    L.RelUnless lost R (throw f) (throw f') :=
  fun _ u hs ↦ .inr ⟨u, congrArg (EStateM.Result.error · u) h, fun _ ↦ hs, hp⟩

/-- What follows a reader that may be lost. -/
theorem bind_lost {k₁ : α → Reader σ₁ γ} {k₂ : β → Reader σ₂ δ} (h : L.RelUnless lost R m₁ m₂)
    (hk : ∀ a b, R a b → L.RelUnless lost' S (k₁ a) (k₂ b))
    (hl : ∀ a t, lost a t → (k₁ a).Ensures t lost' fun f _ ↦ L.Excused f) :
    L.RelUnless lost' S (m₁ >>= k₁) (m₂ >>= k₂) :=
  fun s u hs ↦ (h s u hs).bind_lost (fun a t b v ⟨hab, ht⟩ ↦ hk a b hab t v ht) hl

theorem bind {k₁ : α → Reader σ₁ γ} {k₂ : β → Reader σ₂ δ} (h : L.Rel R m₁ m₂)
    (hk : ∀ a b, R a b → L.RelUnless lost' S (k₁ a) (k₂ b)) :
    L.RelUnless lost' S (m₁ >>= k₁) (m₂ >>= k₂) :=
  h.bind_lost hk fun _ _ ↦ False.elim

theorem of_rel (h : L.Rel R m₁ m₂) : L.RelUnless lost R m₁ m₂ :=
  fun s u hs ↦ (h s u hs).mono fun _ _ _ _ ht ↦ ht

theorem runsTo (h : L.Rel R m₁ m₂) {s : ReadState σ₁} {u : ReadState σ₂} (hs : L.States s u)
    {T : α → ReadState σ₁ → β → ReadState σ₂ → Prop}
    (hT : ∀ a t b v, R a b → L.States t v → T a t b v) : L.RunsTo m₁ s m₂ u T :=
  (h s u hs).mono fun a t b v ⟨hab, ht⟩ ↦ hT a t b v hab ht

end RelUnless

end Rel

open Reader

section

variable {R : α → β → Prop} {lost : α → ReadState σ₁ → Prop} {c d c' d' : Cursor}
variable {s : ReadState σ₁} {u : ReadState σ₂}

/-- Wherever the two runs are, they find the same wrong with corresponding places. -/
theorem failAt_runs {T : α → ReadState σ₁ → β → ReadState σ₂ → Prop} (h : L.Places c d)
    (problem : Problem) (hs : L.Alone → L.States s u) :
    L.RunsUnless lost (failAt c problem) s (failAt d problem) u T := by
  have hfailure : Failure.error ⟨problem, d.offset, none⟩ =
      L.failure (.error ⟨problem, c.offset, none⟩) := by
    rw [h.offset_eq]
    rfl
  refine .inr ⟨u, congrArg (EStateM.Result.error · u) hfailure, hs, ?_⟩
  rintro _ ⟨⟩
  exact ⟨c, d, h, rfl⟩

theorem failAt_rel (h : L.Places c d) (problem : Problem) :
    L.RelUnless lost R (failAt c problem) (failAt d problem) :=
  fun _ _ hs ↦ failAt_runs h problem fun _ ↦ hs

theorem failWithHelp_rel (h : L.Places c d) (problem : Problem) (help : String) :
    L.RelUnless lost R (failWithHelp c problem help) (failWithHelp d problem help) := by
  refine .throw ?_ ?_
  · rw [h.offset_eq]
    rfl
  · rintro _ ⟨⟩
    exact ⟨c, d, h, rfl⟩

theorem here_rel : L.Rel L.Places here here :=
  fun _ u hs ↦ .inr ⟨u.cursor, u, rfl, hs.places, hs⟩

theorem RunsUnless.here {k₁ : Cursor → Reader σ₁ α} {k₂ : Cursor → Reader σ₂ β}
    {T : α → ReadState σ₁ → β → ReadState σ₂ → Prop}
    (h : L.RunsUnless lost (k₁ s.cursor) s (k₂ u.cursor) u T) :
    L.RunsUnless lost (here >>= k₁) s (here >>= k₂) u T :=
  h

theorem get_runsTo (s : ReadState σ₁) (u : ReadState σ₂) :
    L.RunsTo get s get u fun a t b v ↦ (a = s ∧ t = s) ∧ b = u ∧ v = u :=
  .inr ⟨u, u, rfl, ⟨rfl, rfl⟩, rfl, rfl⟩

theorem set_rel (h : L.States s u) : L.Rel Eq (set s) (set u) :=
  fun _ _ _ ↦ .inr ⟨(), u, rfl, rfl, h⟩

theorem moveTo_rel (h : L.Places c d) : L.Rel Eq (moveTo c) (moveTo d) :=
  fun _ u hs ↦ .inr ⟨(), { u with cursor := d }, rfl, rfl, h, hs.parsers, hs.units⟩

theorem skipSpacing_rel : L.Rel Eq skipSpacing skipSpacing :=
  here_rel.bind fun _ _ h ↦ moveTo_rel h.skipSpacing

theorem skipLine_rel : L.Rel Eq skipLine skipLine :=
  here_rel.bind fun _ _ h ↦ moveTo_rel h.lineEnd

theorem unbroken_of_any {w : List Char} (h : w.any isBreak = false) :
    ∀ x ∈ w, isBreak x = false := by
  simpa using h

theorem eat_rel {word : String} (hw : word.toList.any isBreak = false) :
    L.Rel Eq (eat word) (eat word) := by
  refine here_rel.bind fun c d h ↦ ?_
  refine .ite (by rw [h.startsWith hw]) (fun hs ↦ ?_) fun _ ↦ .pure rfl
  have hp := h.past (Cursor.leads_of_startsWith hs).1 (unbroken_of_any hw)
  exact (moveTo_rel hp).bind fun _ _ _ ↦ .pure rfl

theorem moveTo_runsTo (hs : L.States s u) (h : L.Places c d) :
    L.RunsTo (moveTo c) s (moveTo d) u fun _ t _ v ↦ L.States t v ∧ t.cursor = c :=
  .inr ⟨(), { u with cursor := d }, rfl, ⟨h, hs.parsers, hs.units⟩, rfl⟩

/-- Passing a text that is known to stand in front. -/
theorem bump_runsTo (h : L.States s u) {w rest : List Char} {n : Nat}
    (hr : s.cursor.rest = w ++ rest) (hw : ∀ x ∈ w, isBreak x = false) (hn : byteLength w = n) :
    L.RunsTo (bump n) s (bump n) u
      fun _ t _ v ↦ L.States t v ∧ t.cursor = s.cursor.past w := by
  have hword := h.places.word hr hw
  have hu := hword.leads_write.1
  rw [LineEnding.write_of_unbroken hw] at hu
  subst hn
  refine RunsUnless.here ?_
  dsimp only
  rw [hr, hu, firstBytes_append, firstBytes_append, if_pos rfl, if_pos rfl]
  exact .inr ⟨(), _, rfl, ⟨h.places.past hr hw, h.parsers, h.units⟩, rfl⟩

theorem placeAt_rel (h : L.Places c d) (h' : L.Places c' d') :
    L.Rel L.Places (placeAt c c'.offset) (placeAt d d'.offset) := by
  unfold placeAt
  dsimp only
  by_cases hle : c.offset ≤ c'.offset
  · obtain ⟨w, hw, rfl, rfl⟩ := h.between h' hle
    rw [hw.leads.skipTo_eq, hw.leads_write.skipTo_eq, if_pos rfl, if_pos rfl]
    exact .pure hw.past
  · -- A place that has been passed is not found again.
    have hlt := Nat.lt_of_not_le hle
    have hlt' := h'.offset_lt h hlt
    rw [if_neg, if_neg]
    · exact .throw rfl nofun
    · exact Nat.ne_of_gt (Nat.lt_of_lt_of_le hlt' (d.leads_firstBytes _).offset_le)
    · exact Nat.ne_of_gt (Nat.lt_of_lt_of_le hlt (c.leads_firstBytes _).offset_le)

/-- The text between two places is a text of the body. -/
theorem textBetween_rel (h : L.Places c d) (h' : L.Places c' d') :
    L.Rel (fun w w' ↦ w' = L.ending.write w ∧ L.Words w c d) (textBetween c c')
      (textBetween d d') := by
  unfold textBetween
  dsimp only
  by_cases hle : c.offset ≤ c'.offset
  · obtain ⟨w, hw, rfl, rfl⟩ := h.between h' hle
    rw [hw.leads.upTo_eq, hw.leads_write.upTo_eq, if_pos hw.leads.2.symm,
      if_pos hw.leads_write.2.symm]
    exact .pure ⟨rfl, hw⟩
  · have hlt := Nat.lt_of_not_le hle
    have hlt' := h'.offset_lt h hlt
    rw [if_neg, if_neg]
    · exact .throw rfl nofun
    · omega
    · omega

theorem tokenFrom_rel (h : L.Places c d) (kind : Kind) :
    L.Rel L.Tokens (tokenFrom c kind) (tokenFrom d kind) := by
  refine here_rel.bind fun c' d' h' ↦ (textBetween_rel h h').bind ?_
  rintro text _ ⟨rfl, hw⟩
  exact .pure (hw.ofText kind)

theorem lineFrom_rel (h : L.Places c d) {a : Token E₁} {b : Token E₂} (hab : L.Tokens a b) :
    L.Rel L.Tokens (lineFrom c a) (lineFrom d b) := by
  refine here_rel.bind fun c' d' h' ↦ (textBetween_rel h h').bind ?_
  rintro text _ ⟨rfl, hw⟩
  refine .pure ?_
  obtain ⟨blanks, ht, -⟩ := exists_eq_trimEnd_append text
  rw [ht] at hw
  rw [Tokens, Recast.token_withChildren, LineEnding.trimEnd_write, hw.left.ofText, hab,
    Recast.tokens_cons, Recast.tokens_nil]

theorem endRun_rel (interpolated : Bool) :
    L.Rel Eq (endRun interpolated) (endRun interpolated) := by
  refine skipSpacing_rel.bind fun _ _ _ ↦ here_rel.bind fun c d h ↦ ?_
  refine .ite (by rw [h.atRunEnd]) (fun _ ↦ .pure rfl) fun _ ↦ ?_
  exact failAt_rel h _

end

section Rows

variable {item₁ : Reader σ₁ (Item (Token E₁) α)} {item₂ : Reader σ₂ (Item (Token E₂) β)}
variable {R : α → β → Prop} {I J : ReadState σ₁ → ReadState σ₂ → Prop}

/-- Corresponding items of two rows: `I` relates the states between items, and `J` the last. -/
def Items (L : Link σ₁ σ₂ E₁ E₂) (R : α → β → Prop) (I J : ReadState σ₁ → ReadState σ₂ → Prop) :
    Item (Token E₁) α → ReadState σ₁ → Item (Token E₂) β → ReadState σ₂ → Prop
  | .one a, t, .one b, v => L.Tokens a b ∧ I t v
  | .last as x, t, .last bs y, v => L.TokenLists as bs ∧ R x y ∧ J t v
  | .one _, _, .last _ _, _ => False
  | .last _ _, _, .one _, _ => False

/-- Rows of corresponding items correspond, unless the first run is lost with the last of them. -/
theorem gather_runs {lost : ReadState σ₁ → Prop}
    (h : ∀ s u, I s u → L.RunsUnless (fun r t ↦ (∃ as x, r = .last as x) ∧ lost t) item₁ s item₂ u
      (L.Items R I J))
    {n₁ n₂ : Nat} (hle : n₁ ≤ n₂) (heq : L.Excused .stalled ∨ n₁ = n₂)
    (hstates : L.Lenient ∨ ∀ s u, I s u → L.Alone → L.States s u) {s : ReadState σ₁}
    {u : ReadState σ₂}
    (hs : I s u) : L.RunsUnless (fun _ t ↦ lost t) (gather item₁ n₁) s (gather item₂ n₂) u
      fun r t r' v ↦ L.TokenLists r.1 r'.1 ∧ R r.2 r'.2 ∧ J t v := by
  induction n₁ generalizing n₂ s u with
  | zero =>
    rcases heq, hstates with ⟨hx | rfl, hl | hstates⟩
    · exact .inl hx
    · exact .inl hx
    · exact .inl (hl _)
    · exact .inr ⟨u, rfl, hstates s u hs, nofun⟩
  | succ n₁ ih =>
    obtain ⟨n₂, rfl⟩ : ∃ k, n₂ = k + 1 := ⟨n₂ - 1, by omega⟩
    have hle' : n₁ ≤ n₂ := Nat.le_of_succ_le_succ hle
    have heq' : L.Excused .stalled ∨ n₁ = n₂ := heq.imp_right Nat.succ.inj
    refine (h s u hs).bind_lost (fun r t r' v hr ↦ ?_) ?_
    · cases r with
      | one a =>
        cases r' with
        | last bs y => exact hr.elim
        | one b =>
          refine (ih hle' heq' hr.2).bind_lost (fun q t q' v hq ↦ ?_) fun _ _ ↦ id
          refine .inr ⟨_, v, rfl, ?_, hq.2⟩
          rw [TokenLists, Recast.tokens_cons, ← hr.1, ← hq.1]
      | last as x =>
        cases r' with
        | one b => exact hr.elim
        | last bs y => exact .inr ⟨_, v, rfl, hr⟩
    · rintro _ t ⟨⟨as, x, rfl⟩, hlost⟩
      exact hlost

/-- Rows of corresponding items correspond. -/
theorem gather_runsTo (h : ∀ s u, I s u → L.RunsTo item₁ s item₂ u (L.Items R I J))
    {n₁ n₂ : Nat} (hle : n₁ ≤ n₂) (heq : L.Excused .stalled ∨ n₁ = n₂)
    (hstates : L.Lenient ∨ ∀ s u, I s u → L.Alone → L.States s u) {s : ReadState σ₁}
    {u : ReadState σ₂}
    (hs : I s u) : L.RunsTo (gather item₁ n₁) s (gather item₂ n₂) u
      fun r t r' v ↦ L.TokenLists r.1 r'.1 ∧ R r.2 r'.2 ∧ J t v :=
  gather_runs (fun s u hs ↦ (h s u hs).mono fun _ _ _ _ ↦ id) hle heq hstates hs

/-- Corresponding items of two rows between related states. -/
def ItemRel (L : Link σ₁ σ₂ E₁ E₂) (R : α → β → Prop) :
    Item (Token E₁) α → Item (Token E₂) β → Prop
  | .one a, .one b => L.Tokens a b
  | .last as x, .last bs y => L.TokenLists as bs ∧ R x y
  | .one _, .last _ _ => False
  | .last _ _, .one _ => False

theorem items_of_itemRel {r : Item (Token E₁) α} {r' : Item (Token E₂) β} {t : ReadState σ₁}
    {v : ReadState σ₂} (hr : L.ItemRel R r r') (ht : L.States t v) :
    L.Items R L.States L.States r t r' v := by
  cases r <;> cases r' <;> first | exact hr.elim | exact ⟨hr, ht⟩ | exact ⟨hr.1, hr.2, ht⟩

/-- Corresponding items, wherever the runs are. -/
theorem runs_items {lost : Item (Token E₁) α → ReadState σ₁ → Prop} {s : ReadState σ₁}
    {u : ReadState σ₂}
    (h : L.RunsUnless lost item₁ s item₂ u fun r t r' v ↦ L.ItemRel R r r' ∧ L.States t v) :
    L.RunsUnless lost item₁ s item₂ u (L.Items R L.States L.States) :=
  h.mono_lost (fun _ _ ↦ id) fun _ _ _ _ ⟨hr, ht⟩ ↦ items_of_itemRel hr ht

/-- An item that others may follow. -/
theorem one_runsTo {m₁ : Reader σ₁ (Token E₁)} {m₂ : Reader σ₂ (Token E₂)} {s : ReadState σ₁}
    {u : ReadState σ₂} (h : L.RunsTo m₁ s m₂ u fun a t b v ↦ L.Tokens a b ∧ L.States t v) :
    L.RunsTo (do return .one (← m₁)) s (do return .one (← m₂)) u
      fun r t r' v ↦ L.ItemRel R r r' ∧ L.States t v :=
  RunsUnless.bind h fun _ _ _ v hab ↦ .inr ⟨_, v, rfl, hab⟩

end Rows

/-- An expression of the first run, and the same expression in the second. Its text stands in the
body. -/
def Exprs (L : Link σ₁ σ₂ E₁ E₂) (e : Embedded E₁) (f : Embedded E₂) : Prop :=
  f = L.embedded e ∧ ∃ c d, L.Words e.text.toList c d ∧ c.offset = e.span.start

/-- The lines of a statement break where the line ending can be written otherwise. -/
def Feeds (L : Link σ₁ σ₂ E₁ E₂) (mode : Mode) : Prop :=
  L.ending = .lf ∨ ∀ lineBreak, mode = .statement lineBreak → '\r' ∉ lineBreak

/-- Setups with which expressions are read alike. -/
structure Setups (L : Link σ₁ σ₂ E₁ E₂) (g₁ : Setup σ₁ E₁) (g₂ : Setup σ₂ E₂) : Prop where
  expression : ∀ mode problem, L.Feeds mode → problem.OfExpression →
    L.Rel L.Exprs (expression g₁ mode problem) (expression g₂ (mode.write L.ending) problem)
  /-- Where only the first run rejects the definition of a mixin, it is excused. -/
  rejects : ∀ e : Embedded E₁, g₁.parser.shape e.handle = .other →
    g₂.parser.shape (L.handle e) = .other ∨
      ∀ offset, L.Excused (.error ⟨.invalidMixinDefinition, offset, none⟩)
  accepts : ∀ e : Embedded E₁, g₂.parser.shape (L.handle e) = .other →
    g₁.parser.shape e.handle = .other ∨ L.Rejected e
  maxDepth : g₂.maxDepth = g₁.maxDepth
  rounds_le : g₁.rounds ≤ g₂.rounds
  rounds_eq : L.Excused .stalled ∨ g₁.rounds = g₂.rounds

section Setups

variable {g₁ : Setup σ₁ E₁} {g₂ : Setup σ₂ E₂}

theorem Setups.inline_rel (h : L.Setups g₁ g₂) (site : Site) :
    L.Rel L.Exprs (Reader.expression g₁ .inline (.invalidExpression site))
      (Reader.expression g₂ .inline (.invalidExpression site)) :=
  h.expression .inline _ (.inr nofun) (.inr ⟨site, rfl⟩)

/-- Rows in the rounds of corresponding setups, the first of which may be lost with its last item. -/
theorem Setups.gather_relUnless (h : L.Setups g₁ g₂) {lost : ReadState σ₁ → Prop}
    {item₁ : Reader σ₁ (Item (Token E₁) α)} {item₂ : Reader σ₂ (Item (Token E₂) β)}
    {R : α → β → Prop} (hi : L.RelUnless (fun r t ↦ (∃ as x, r = .last as x) ∧ lost t) (L.ItemRel R)
      item₁ item₂) :
    L.RelUnless (fun _ t ↦ lost t) (fun r r' ↦ L.TokenLists r.1 r'.1 ∧ R r.2 r'.2)
      (gather item₁ g₁.rounds) (gather item₂ g₂.rounds) := fun _ _ hs ↦
  (gather_runs (fun s u hs ↦ runs_items (hi s u hs)) h.rounds_le h.rounds_eq
    (.inr fun _ _ h _ ↦ h) hs).mono_lost (fun _ _ ↦ id) fun _ _ _ _ ⟨h₁, h₂, h₃⟩ ↦ ⟨⟨h₁, h₂⟩, h₃⟩

/-- Rows in the rounds of corresponding setups. -/
theorem Setups.gather_rel (h : L.Setups g₁ g₂)
    {item₁ : Reader σ₁ (Item (Token E₁) α)} {item₂ : Reader σ₂ (Item (Token E₂) β)}
    {R : α → β → Prop} (hi : L.Rel (L.ItemRel R) item₁ item₂) :
    L.Rel (fun r r' ↦ L.TokenLists r.1 r'.1 ∧ R r.2 r'.2) (gather item₁ g₁.rounds)
      (gather item₂ g₂.rounds) :=
  h.gather_relUnless (.of_rel hi)

end Setups

end Link

end Pug

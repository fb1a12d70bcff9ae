import Pug.Expression.Loose
import Pug.Proofs.Lockstep.Basic
import Pug.Proofs.Reading.Consulted

/-!
# Expression parsers that answer alike

Of an answer, reading uses the handle and the text that it takes, if it takes one, and otherwise
whether the expression parser broke down. Where two expression parsers agree in this, expressions
are read in lockstep. So a record of the calls changes nothing, and an answer that takes no text is
as good as none.
-/

namespace Pug

open Text Token Reader
open ExpressionParser (Call checked checkedAnswer)

namespace Reader

variable {σ E : Type} {g : Setup σ E} {mode : Mode} {problem : Problem} {s : ReadState σ}

/-- The expression parser is asked about the rest, and its state is kept. -/
theorem ask_eq {answer : Answer E} {p : σ}
    (h : g.parser.parse mode s.cursor.rest s.parser = (answer, p)) :
    ask g mode s = .ok answer ⟨s.cursor, s.unit, p⟩ := by
  have hask : ask g mode s = .ok (g.parser.parse mode s.cursor.rest s.parser).1
      ⟨s.cursor, s.unit, (g.parser.parse mode s.cursor.rest s.parser).2⟩ := rfl
  rw [hask, h]

/-- An answer that takes a text makes an expression of it. -/
theorem expression_of_taken {answer : Answer E} {p : σ} {handle : E} {text : List Char}
    (h : g.parser.parse mode s.cursor.rest s.parser = (answer, p))
    (ht : Call.taken? ⟨mode, s.cursor.rest, answer⟩ = some (handle, text)) :
    expression g mode problem s =
      .ok (embed s.cursor text handle) ⟨s.cursor.past text, s.unit, p⟩ := by
  unfold expression
  rw [bind_of_ok (here_eq s), bind_of_ok (ask_eq h)]
  obtain ⟨rfl, hpos, others, ho⟩ := Call.taken?_eq_some ht
  have hf : firstBytes (byteLength text) s.cursor.rest = text := by
    change s.cursor.rest = _ at ho
    rw [ho, firstBytes_append]
  have hc : ¬(decide (byteLength text = 0) ||
      byteLength (firstBytes (byteLength text) s.cursor.rest) != byteLength text) = true := by
    rw [hf]
    simp [Nat.ne_of_gt hpos]
  dsimp only
  rw [if_neg hc, hf]
  rfl

/-- An answer that takes none fails where the expression was to start. -/
theorem expression_of_refused {answer : Answer E} {p : σ}
    (h : g.parser.parse mode s.cursor.rest s.parser = (answer, p))
    (ht : Call.taken? ⟨mode, s.cursor.rest, answer⟩ = none) (hb : answer ≠ .brokeDown) :
    expression g mode problem s =
      .error (.error ⟨problem, s.cursor.offset, none⟩) ⟨s.cursor, s.unit, p⟩ := by
  unfold expression
  rw [bind_of_ok (here_eq s), bind_of_ok (ask_eq h)]
  cases answer with
  | brokeDown => exact absurd rfl hb
  | declined => rfl
  | accepted handle bytes =>
    simp only [Call.taken?] at ht
    split at ht
    · rename_i hc
      dsimp only
      rw [if_pos hc]
      rfl
    · contradiction

theorem expression_of_brokeDown {p : σ}
    (h : g.parser.parse mode s.cursor.rest s.parser = (.brokeDown, p)) :
    expression g mode problem s = .error .brokeDown ⟨s.cursor, s.unit, p⟩ := by
  unfold expression
  rw [bind_of_ok (here_eq s), bind_of_ok (ask_eq h)]
  rfl

end Reader

namespace Link

variable {σ₁ σ₂ E₁ E₂ : Type} {L : Link σ₁ σ₂ E₁ E₂} {c d : Cursor} {p : σ₁} {q : σ₂}

/-- Expression parsers that answer alike at corresponding places. -/
structure Answers (L : Link σ₁ σ₂ E₁ E₂) (parser₁ : ExpressionParser σ₁ E₁)
    (parser₂ : ExpressionParser σ₂ E₂) : Prop where
  parsers : ∀ {mode c d p q}, L.Feeds mode → L.Places c d → L.parsers p q →
    L.parsers (parser₁.parse mode c.rest p).2 (parser₂.parse (mode.write L.ending) d.rest q).2
  taken : ∀ {mode c d p q handle text}, L.Feeds mode → L.Places c d → L.parsers p q →
    Call.taken? ⟨mode, c.rest, (parser₁.parse mode c.rest p).1⟩ = some (handle, text) →
      L.Words text c d ∧ Call.taken? ⟨mode.write L.ending, d.rest,
        (parser₂.parse (mode.write L.ending) d.rest q).1⟩ =
          some (L.handle (embed c text handle), L.ending.write text)
  refused : ∀ {mode c d p q}, L.Feeds mode → L.Places c d → L.parsers p q →
    Call.taken? ⟨mode, c.rest, (parser₁.parse mode c.rest p).1⟩ = none →
      (parser₁.parse mode c.rest p).1 ≠ .brokeDown →
        (∀ problem offset, problem.OfExpression → L.Excused (.error ⟨problem, offset, none⟩)) ∨
          Call.taken? ⟨mode.write L.ending, d.rest,
            (parser₂.parse (mode.write L.ending) d.rest q).1⟩ = none ∧
              (parser₂.parse (mode.write L.ending) d.rest q).1 ≠ .brokeDown
  brokeDown : ∀ {mode c d p q}, L.Feeds mode → L.Places c d → L.parsers p q →
    (parser₁.parse mode c.rest p).1 = .brokeDown →
      L.Excused .brokeDown ∨ (parser₂.parse (mode.write L.ending) d.rest q).1 = .brokeDown

/-- The expression of a text that stands at corresponding places. -/
theorem embed_recast {raw : List Char} (h : L.Words raw c d) (handle : E₁) :
    L.Exprs (embed c raw handle)
      (embed d (L.ending.write raw) (L.handle (embed c raw handle))) := by
  obtain ⟨blanks, hraw, -⟩ := exists_eq_trim_append raw
  have hw : L.Words (raw.takeWhile isBlank ++ (trim raw ++ blanks)) c d := hraw ▸ h
  have htrim := hw.past_left.left
  refine ⟨?_, c.past (raw.takeWhile isBlank),
    d.past (L.ending.write (raw.takeWhile isBlank)), ?_, rfl⟩
  · have hspan := htrim.span_eq
    simp only [embed, Recast.embedded, Recast.text_ofList, LineEnding.trim_write,
      LineEnding.takeWhile_write (p := isBlank) rfl rfl, hspan]
  · simpa only [embed, String.toList_ofList] using htrim

theorem Answers.expression_rel {g₁ : Setup σ₁ E₁} {g₂ : Setup σ₂ E₂}
    (h : L.Answers g₁.parser g₂.parser) {mode : Mode} {problem : Problem} (hm : L.Feeds mode)
    (hproblem : problem.OfExpression) :
    L.Rel L.Exprs (expression g₁ mode problem) (expression g₂ (mode.write L.ending) problem) := by
  intro s u hs
  have hp := h.parsers hm hs.places hs.parsers
  have hstay : L.States ⟨s.cursor, s.unit, (g₁.parser.parse mode s.cursor.rest s.parser).2⟩
      ⟨u.cursor, u.unit, (g₂.parser.parse (mode.write L.ending) u.cursor.rest u.parser).2⟩ :=
    ⟨hs.places, hp, hs.units⟩
  unfold RunsUnless
  cases ht : Call.taken? ⟨mode, s.cursor.rest, (g₁.parser.parse mode s.cursor.rest s.parser).1⟩ with
  | some r =>
    obtain ⟨hw, ht'⟩ := h.taken hm hs.places hs.parsers (show _ = some (r.1, r.2) from ht)
    rw [expression_of_taken rfl ht]
    exact .inr ⟨_, _, expression_of_taken rfl ht', embed_recast hw _, hw.past, hp, hs.units⟩
  | none =>
    cases ha : (g₁.parser.parse mode s.cursor.rest s.parser).1 with
    | brokeDown =>
      rw [expression_of_brokeDown (Prod.ext ha rfl)]
      refine (h.brokeDown hm hs.places hs.parsers ha).imp_right fun hb ↦ ?_
      exact ⟨_, expression_of_brokeDown (Prod.ext hb rfl), fun _ ↦ hstay, nofun⟩
    | _ =>
      have hne : (g₁.parser.parse mode s.cursor.rest s.parser).1 ≠ .brokeDown := by
        rw [ha]
        nofun
      rw [expression_of_refused rfl ht hne]
      refine (h.refused hm hs.places hs.parsers ht hne).imp (fun hx ↦ hx _ _ hproblem)
        fun ⟨ht', hb⟩ ↦ ⟨_, ?_, fun _ ↦ hstay, ?_⟩
      · rw [expression_of_refused rfl ht' hb, hs.places.offset_eq]
        rfl
      · rintro _ ⟨⟩
        exact ⟨_, _, hs.places, rfl⟩

theorem Answers.setups {g₁ : Setup σ₁ E₁} {g₂ : Setup σ₂ E₂} (h : L.Answers g₁.parser g₂.parser)
    (hrejects : ∀ e : Embedded E₁, g₁.parser.shape e.handle = .other →
      g₂.parser.shape (L.handle e) = .other ∨
        ∀ offset, L.Excused (.error ⟨.invalidMixinDefinition, offset, none⟩))
    (haccepts : ∀ e : Embedded E₁, g₂.parser.shape (L.handle e) = .other →
      g₁.parser.shape e.handle = .other ∨ L.Rejected e)
    (hd : g₂.maxDepth = g₁.maxDepth) (hle : g₁.rounds ≤ g₂.rounds)
    (heq : L.Excused .stalled ∨ g₁.rounds = g₂.rounds) : L.Setups g₁ g₂ :=
  ⟨fun _ _ ↦ h.expression_rel, hrejects, haccepts, hd, hle, heq⟩

/-- Over the same text, what stands in front is the same. -/
theorem Places.rest_eq (h : L.Places c d) (he : L.ending = .lf) (h₁ : L.ends₁ = [])
    (h₂ : L.ends₂ = []) : d.rest = c.rest := by
  obtain ⟨before, after, -, rfl, rfl⟩ := h
  simp [he, h₁, h₂]

/-- A checked parser takes the same texts whatever follows the body. -/
theorem answers_checked {E : Type} {L : Link σ₁ Unit E E} {parser : ExpressionParser σ₁ E}
    {check : Mode → List Char → Option E} (shape : E → Shape)
    (hparser : ∀ mode rest p, (parser.parse mode rest p).1 = checkedAnswer check mode rest)
    (hlf : L.ending = .lf) (hhandle : L.handle = Embedded.handle) (hp : ∀ p q, L.parsers p q)
    (hL : L.Lenient) : L.Answers parser (checked shape check) where
  parsers _ _ _ := hp _ _
  taken := by
    intro mode c d p q handle text _ h _ ht
    obtain ⟨ha, hpos, others, ho⟩ := Call.taken?_eq_some ht
    obtain ⟨before, after, hbody, rfl, rfl⟩ := h
    dsimp only at ha ho
    rw [hparser] at ha
    obtain ⟨ha₂, text', more, rfl, hbytes⟩ := checkedAnswer_ends L.breaks L.followsLine ha
    -- The text that is taken is the one that the scan finds.
    obtain rfl : text' = text := by
      rw [List.nil_append, List.append_assoc] at ho
      rw [← firstBytes_append text' (more ++ L.ends₁), ho, hbytes, firstBytes_append]
    refine ⟨⟨before, more, hbody, by simp, by simp⟩, ?_⟩
    simp only [hlf, hhandle, LineEnding.write_lf, Mode.write_lf, List.nil_append]
    exact Call.taken?_of_accepted ha₂ hpos (List.append_assoc text' more L.ends₂)
  refused _ _ _ _ _ := .inl fun _ _ _ ↦ hL _
  brokeDown _ _ _ _ := .inl (hL _)

/-- Over the same text, expression parsers that answer alike answer alike at corresponding places. -/
theorem answers_exact {E : Type} {L : Link σ₁ σ₂ E E} {parser₁ : ExpressionParser σ₁ E}
    {parser₂ : ExpressionParser σ₂ E} (he : L.ending = .lf) (h₁ : L.ends₁ = []) (h₂ : L.ends₂ = [])
    (hhandle : L.handle = Embedded.handle)
    (hp : ∀ mode rest p q, L.parsers p q →
      L.parsers (parser₁.parse mode rest p).2 (parser₂.parse mode rest q).2)
    (ht : ∀ mode rest p q, L.parsers p q →
      Call.taken? ⟨mode, rest, (parser₂.parse mode rest q).1⟩ =
        Call.taken? ⟨mode, rest, (parser₁.parse mode rest p).1⟩)
    (hb : ∀ mode rest p q, L.parsers p q → ((parser₂.parse mode rest q).1 = .brokeDown ↔
      (parser₁.parse mode rest p).1 = .brokeDown)) : L.Answers parser₁ parser₂ where
  parsers := by
    intro mode c d p q _ h hpq
    rw [h.rest_eq he h₁ h₂, he, Mode.write_lf]
    exact hp mode c.rest p q hpq
  taken := by
    intro mode c d p q handle text _ h hpq htaken
    obtain ⟨-, -, others, ho⟩ := Call.taken?_eq_some htaken
    refine ⟨h.word_of_exact h₁ ho, ?_⟩
    rw [h.rest_eq he h₁ h₂, he, Mode.write_lf, ht mode c.rest p q hpq, htaken, LineEnding.write_lf,
      hhandle]
    rfl
  refused := by
    intro mode c d p q _ h hpq htaken hne
    right
    rw [h.rest_eq he h₁ h₂, he, Mode.write_lf, ht mode c.rest p q hpq]
    exact ⟨htaken, mt (hb mode c.rest p q hpq).1 hne⟩
  brokeDown := by
    intro mode c d p q _ h hpq hbroke
    right
    rw [h.rest_eq he h₁ h₂, he, Mode.write_lf]
    exact (hb mode c.rest p q hpq).2 hbroke

/-- Over the same text, an expression parser answers as it does. -/
theorem answers_self {σ E : Type} {L : Link σ σ E E} (he : L.ending = .lf) (h₁ : L.ends₁ = [])
    (h₂ : L.ends₂ = []) (hhandle : L.handle = Embedded.handle) (hp : ∀ p q, L.parsers p q ↔ p = q)
    (parser : ExpressionParser σ E) : L.Answers parser parser := by
  refine answers_exact he h₁ h₂ hhandle ?_ ?_ ?_
  all_goals
    intro mode rest p q hpq
    obtain rfl := (hp p q).1 hpq
  · exact (hp _ _).2 rfl
  · rfl
  · exact Iff.rfl

/-- Two runs over one template. -/
def onOne (E : Type) (source : List Char) (parsers : σ₁ → σ₂ → Prop) : Link σ₁ σ₂ E E :=
  strict (.moved 0) source (.inl rfl) (fun before w _ _ ↦ Recast.offset_moved_add 0 before w) parsers
    fun _ ↦ False

/-- A run beside itself, in which something is known of the unit. -/
def beside (σ E : Type) (source : List Char) (Known : Option IndentUnit → Prop) : Link σ σ E E :=
  let L := onOne E source Eq
  excusing L.toRecast source L.ends₁ L.ends₂ L.breaks L.followsLine L.feeds L.offset_add L.parsers
    (fun a b ↦ b = a ∧ Known a) (fun _ ↦ False) fun _ ↦ False

variable {σ E : Type} {source : List Char} {Known : Option IndentUnit → Prop}

theorem answers_beside (parser : ExpressionParser σ E) :
    (beside σ E source Known).Answers parser parser :=
  answers_self rfl rfl rfl rfl (fun _ _ ↦ Iff.rfl) parser

theorem setups_beside (g : Setup σ E) : (beside σ E source Known).Setups g g :=
  (answers_beside g.parser).setups (fun _ h ↦ .inl h) (fun _ h ↦ .inl h) rfl (Nat.le_refl _)
    (.inl trivial)

/-- Whatever the state, there is a template that the run goes on in. -/
theorem exists_states_beside (s : ReadState σ) (h : Known s.unit) :
    ∃ source, (beside σ E source Known).States s s := by
  obtain ⟨before, hb⟩ : ∃ before : List Char, byteLength before = s.cursor.offset := by
    refine ⟨List.replicate s.cursor.offset ' ', ?_⟩
    induction s.cursor.offset with
    | zero => rfl
    | succ n ih => rw [List.replicate_succ, byteLength_cons, ih, Nat.add_comm]; rfl
  refine ⟨before ++ s.cursor.rest, ⟨before, s.cursor.rest, rfl, ?_, ?_⟩, rfl, rfl, h⟩
  · change s.cursor = ⟨byteLength before, s.cursor.rest ++ []⟩
    rw [hb, List.append_nil]
  · change s.cursor = ⟨byteLength before, LineEnding.lf.write s.cursor.rest ++ []⟩
    rw [hb, List.append_nil, LineEnding.write_lf]

/-- What is known of the unit stays known over a reader that can be run beside another. -/
theorem known_of_beside {α : Type} {m : Reader σ α} {s t : ReadState σ} {a : α}
    (h : ∀ source, (beside σ E source Known).States s s → ∃ β, ∃ m' : Reader σ β,
      (beside σ E source Known).RunsTo m s m' s fun _ t _ _ ↦ Known t.unit)
    (hs : Known s.unit) (hm : m s = .ok a t) : Known t.unit := by
  obtain ⟨source, hstates⟩ := exists_states_beside (E := E) s hs
  obtain ⟨β, m', hruns⟩ := h source hstates
  unfold RunsTo RunsUnless at hruns
  rw [hm] at hruns
  obtain ⟨_, _, _, hunit⟩ := hruns.resolve_left not_false
  exact hunit

end Link

end Pug

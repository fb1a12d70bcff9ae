import Pug.Proofs.Reader.Ensures
import Pug.Proofs.Reading.Basic

/-!
# The steps that readings are made of

A run starts in a *settled* state: the cursor is a place of the template, and the calls so far were
consulted up to there. It ends in a settled state, or it is *broken* by an error of the template or
by the expression parser, where all calls but the last one were consulted. A run is never broken
because a place, a text or a row of items is not what it should be.

This module has the rules for the moves of a reader, for the expression parser, and for rows.
-/

namespace Pug

open Text Token
open ExpressionParser (Call)

variable {σ E α β : Type} {source : List Char}

/-- The cursor is a place of the template, up to which the expression parser was consulted. -/
structure Settled (source : List Char) (s : Recorded σ E) : Prop where
  place : Place source s.cursor
  consulted : ∃ es, Consulted source 0 s.calls.reverse es s.cursor.offset

/-- A run may fail like this: with an error at a place of the template, or because the expression
parser broke down. At most one call, the last, was not taken, and no text that an earlier call
took was given to it. -/
structure Broken (source : List Char) (f : Failure) (s : Recorded σ E) : Prop where
  place : Place source s.cursor
  cause : (∃ e, f = .error e ∧ ∃ c, Place source c ∧ c.offset = e.offset) ∨
    f = .brokeDown ∧ ∃ call ∈ s.calls.head?, call.answer = .brokeDown
  logged : Logged source s.calls.reverse

namespace Settled

variable {s t : Recorded σ E} {w : List Char}

theorem of_reading {ts : List (Token E)} (hs : Settled source s) (h : Reading source s ts t) :
    Settled source t where
  place := h.place hs.place
  consulted := by
    obtain ⟨es, hes⟩ := hs.consulted
    obtain ⟨calls, hc, hcs⟩ := h.consulted
    exact ⟨es ++ embeddedAll ts, by simpa [hc] using hes.append hcs⟩

theorem of_moved (hs : Settled source s) (h : Moved s w t) : Settled source t where
  place := hs.place.leads h.leads
  consulted := by
    obtain ⟨es, hes⟩ := hs.consulted
    refine ⟨es, ?_⟩
    have : t.calls = s.calls := congrArg Prod.snd h.parser
    rw [this]
    exact hes.mono h.leads.offset_le

theorem broken (hs : Settled source s) {c : Cursor} (hc : Place source c) (problem : Problem)
    (help : Option String) : Broken source (.error ⟨problem, c.offset, help⟩) s where
  place := hs.place
  cause := .inl ⟨_, rfl, c, hc, rfl⟩
  logged := by
    obtain ⟨es, hes⟩ := hs.consulted
    exact .of_consulted hes hs.place.offset_le

end Settled

/-- The expression parser of the readings: one whose calls are recorded, in a setup with more
rounds than the template has characters. -/
structure Setup.Records (g : Setup (σ × List (Call E)) E) (parser : ExpressionParser σ E)
    (source : List Char) : Prop where
  parser : g.parser = ExpressionParser.recorded parser
  rounds : source.length < g.rounds

theorem Cursor.leads_cons {c : Cursor} {x : Char} {rest : List Char} (h : c.rest = x :: rest) :
    c.Leads [x] (c.past [x]) :=
  Cursor.leads_past h

namespace Reader

variable {s : ReadState σ} {broken : Failure → ReadState σ → Prop}

theorem ensures_bump {w : List Char} {n : Nat} {post : Unit → ReadState σ → Prop}
    (h : s.cursor.Leads w (s.cursor.past w)) (hn : byteLength w = n)
    (hp : post () { s with cursor := s.cursor.past w }) : (bump n).Ensures s post broken := by
  have hw : firstBytes n s.cursor.rest = w := by rw [h.1, ← hn, firstBytes_append]
  unfold bump
  simp only [ensures_bind, ensures_here, hw, hn, ↓reduceIte, ensures_moveTo]
  exact hp

theorem ensures_placeAt {c d : Cursor} {w : List Char} {post : Cursor → ReadState σ → Prop}
    (h : c.Leads w d) (hp : post d s) : (placeAt c d.offset).Ensures s post broken := by
  unfold placeAt
  simpa only [h.skipTo_eq, ↓reduceIte, ensures_pure] using hp

theorem ensures_textBetween {c d : Cursor} {w : List Char} {post : List Char → ReadState σ → Prop}
    (h : c.Leads w d) (hp : post w s) : (textBetween c d).Ensures s post broken := by
  unfold textBetween
  simpa only [h.upTo_eq, ← h.2, ↓reduceIte, ensures_pure] using hp

theorem ensures_tokenFrom {c : Cursor} {w : List Char} {kind : Kind}
    {post : Token E → ReadState σ → Prop} (h : c.Leads w s.cursor)
    (hp : post (.ofText kind c w) s) : (tokenFrom c kind).Ensures s post broken := by
  unfold tokenFrom
  simp only [ensures_bind, ensures_here, ensures_pure]
  exact ensures_textBetween h hp

theorem ensures_lineFrom {c : Cursor} {w : List Char} {payload : Token E}
    {post : Token E → ReadState σ → Prop} (h : c.Leads w s.cursor)
    (hp : post ((Token.ofText .line c (trimEnd w)).withChildren [payload]) s) :
    (lineFrom c payload).Ensures s post broken := by
  unfold lineFrom
  simp only [ensures_bind, ensures_here, ensures_pure]
  exact ensures_textBetween h hp

section

variable {s : Recorded σ E}

theorem moved_to {w : List Char} {d : Cursor} (h : s.cursor.Leads w d) :
    Moved s w { s with cursor := d } :=
  ⟨h, rfl⟩

theorem isBlank_of_mem_spacing {cs : List Char} {x : Char} (h : x ∈ cs.takeWhile isSpacing) :
    isBlank x = true :=
  isBlank_of_isSpacing (List.mem_takeWhile_imp h)

theorem isBlank_of_mem_separators {cs : List Char} {x : Char}
    (h : x ∈ cs.takeWhile isSeparator) : isBlank x = true := by
  have hx : isSeparator x = true := List.mem_takeWhile_imp h
  rcases Bool.or_eq_true_iff.1 hx with hx | hx
  · exact isBlank_of_isSpacing hx
  · exact isBlank_of_isBreak hx

/-- Passing spacing makes no token. -/
theorem reading_skipSpacing (hs : Place source s.cursor) :
    Reading source s [] { s with cursor := s.cursor.skipSpacing } :=
  .gap hs (moved_to s.cursor.leads_skipSpacing) fun _ hx ↦ .inl (isBlank_of_mem_spacing hx)

theorem reading_skipSeparators (hs : Place source s.cursor) :
    Reading source s [] { s with cursor := s.cursor.skipSeparators } :=
  .gap hs (moved_to s.cursor.leads_skipSeparators) fun _ hx ↦ .inl (isBlank_of_mem_separators hx)

/-- Passing marks makes no token. -/
theorem reading_marks {w : List Char} (hs : Place source s.cursor)
    (h : s.cursor.Leads w (s.cursor.past w)) (hw : w.all isMark = true) :
    Reading source s [] { s with cursor := s.cursor.past w } :=
  .gap hs (moved_to h) fun x hx ↦ .inr (List.all_eq_true.1 hw x hx)

/-- Learning the unit of indentation moves nothing. -/
theorem reading_unit (hs : Place source s.cursor) (unit : Option IndentUnit) :
    Reading source s [] { s with unit := unit } :=
  .gap hs ⟨.refl s.cursor, rfl⟩ (by simp)

/-- Passing a line break makes no token. -/
theorem reading_nextLine (hs : Place source s.cursor) :
    Reading source s [] { s with cursor := s.cursor.nextLine } :=
  .gap hs (moved_to s.cursor.leads_nextLine) fun _ hx ↦
    .inl (isBlank_of_isBreak (Cursor.isBreak_of_mem_lineBreak hx))

/-- A text is passed as a token of the text without the blanks at its end. -/
theorem reading_trimEnd {w : List Char} {d : Cursor} {kind : Kind} (hs : Place source s.cursor)
    (h : s.cursor.Leads w d) (hk : kind.isContainer = false) :
    Reading source s [ofText kind s.cursor (trimEnd w)] { s with cursor := d } := by
  obtain ⟨blanks, hw, hb⟩ := exists_eq_trimEnd_append w
  rw [hw] at h
  obtain ⟨htext, hrest⟩ := h.split
  have hleaf : Reading source s _ _ := .leaf hs (moved_to htext) hk
  exact hleaf.before (.gap (hleaf.place hs) ⟨hrest, rfl⟩ fun x hx ↦ .inl (hb x hx))

/-- The end of a run is found behind spacing. -/
theorem endRun_reads (hs : Settled source s) (interpolated : Bool) :
    (endRun interpolated).Ensures s
      (fun _ t ↦ t = { s with cursor := s.cursor.skipSpacing } ∧
        t.cursor.atRunEnd interpolated = true ∧ Reading source s [] t) (Broken source) := by
  have hr := reading_skipSpacing hs.place
  unfold endRun
  simp only [ensures_bind, ensures_skipSpacing, ensures_here]
  refine ensures_ite (fun h ↦ ⟨rfl, h, hr⟩) fun _ ↦ ?_
  exact (hs.of_reading hr).broken (hr.place hs.place) _ _

/-- What is read with an expression is the expression and blanks. -/
theorem reading_embed {t : Recorded σ E} {raw : List Char} {handle : E} {call : Call E}
    (hs : Place source s.cursor) (hl : s.cursor.Leads raw t.cursor)
    (hc : t.calls = call :: s.calls) (hr : call.rest = s.cursor.rest)
    (ht : call.taken? = some (handle, raw)) :
    Reading source s [argument (embed s.cursor raw handle)] t := by
  obtain ⟨m, n, blanks, hm, hn, hd, hb, he⟩ := embed_leads hl handle
  have hsm : Accounted source s.cursor.offset [] m.offset :=
    accounted_of_marks hs hm fun x hx ↦ .inl (List.mem_takeWhile_imp hx)
  have hnd : Accounted source n.offset [] t.cursor.offset :=
    accounted_of_marks ((hs.leads hm).leads hn) hd fun x hx ↦ .inl (hb x hx)
  refine ⟨⟨_, hl⟩, ⟨[call], by simpa using hc, ?_⟩, ?_, ?_, ?_⟩
  · exact .cons hs hr ht (Nat.le_refl _) (.nil (Nat.le_of_eq hl.2.symm))
  · intro u hu
    simp only [preorderAll_cons, children_argument, preorderAll_nil, List.append_nil,
      List.mem_singleton] at hu
    rw [hu, he]
    have := (hs.leads hm).stands hn
    rwa [← hn.2] at this
  · rw [he]
    simp only [leafSpansAll_cons, leafSpansAll_nil, leafSpans_eq, argument, withExpr, Token.leaf,
      leafSpansBelow_nil, apart?, Option.map_some, Option.filter_some, List.append_nil]
    refine ⟨hm.offset_le, hn.offset_le, ?_⟩
    split
    · rename_i hnm
      exact ⟨by simpa using hnm, hn.offset_le, hd.offset_le⟩
    · exact hd.offset_le
  · rw [he]
    exact ((hsm.append (.self source m.offset n.offset)).append hnd).mono (by simp)

theorem ensures_ask {g : Setup (σ × List (Call E)) E} {parser : ExpressionParser σ E}
    (hg : g.Records parser source) (mode : Mode) {post : Answer E → Recorded σ E → Prop}
    {broken : Failure → Recorded σ E → Prop} {answer : Answer E} {p : σ}
    (h : parser.parse mode s.cursor.rest s.parser.1 = (answer, p))
    (hp : post answer { s with parser := (p, ⟨mode, s.cursor.rest, answer⟩ :: s.parser.2) }) :
    (ask g mode).Ensures s post broken := by
  have : g.parser.parse mode s.cursor.rest s.parser =
      (answer, p, ⟨mode, s.cursor.rest, answer⟩ :: s.parser.2) := by
    rw [hg.parser, ExpressionParser.parse_recorded, h]
  unfold ask
  simp only [ensures_bind, ensures_get, this, ensures_set, ensures_pure]
  exact hp

/-- An expression is read from the rest that the parser is given, and the cursor moves on. -/
theorem expression_reads {g : Setup (σ × List (Call E)) E} {parser : ExpressionParser σ E}
    (hg : g.Records parser source) (hs : Settled source s) (mode : Mode) (problem : Problem) :
    (expression g mode problem).Ensures s
      (fun e t ↦ Reading source s [argument e] t ∧
        t.cursor.rest.length < s.cursor.rest.length) (Broken source) := by
  obtain ⟨es, hes⟩ := hs.consulted
  obtain ⟨⟨answer, p⟩, hans⟩ : ∃ r, parser.parse mode s.cursor.rest s.parser.1 = r := ⟨_, rfl⟩
  let call : Call E := ⟨mode, s.cursor.rest, answer⟩
  let asked : Recorded σ E := { s with parser := (p, call :: s.parser.2) }
  -- Whatever ends the run here leaves the call that was just made as the last one.
  have hfail : ∀ f : Failure, call.taken? = none →
      ((∃ e, f = .error e ∧ ∃ c, Place source c ∧ c.offset = e.offset) ∨
        f = .brokeDown ∧ answer = .brokeDown) → Broken source f asked := by
    intro f ht hf
    refine ⟨hs.place, hf.imp_right fun ⟨h, ha⟩ ↦ ⟨h, call, rfl, ha⟩, ⟨s.calls.reverse, some call, es,
      s.cursor.offset, List.reverse_cons .., hes, hs.place.offset_le, fun c hc ↦ ?_⟩⟩
    cases hc
    exact ⟨ht, s.cursor, hs.place, rfl, Nat.le_refl _⟩
  have herror : call.taken? = none →
      Broken source (.error ⟨problem, s.cursor.offset, none⟩) asked :=
    fun ht ↦ hfail _ ht (.inl ⟨_, rfl, s.cursor, hs.place, rfl⟩)
  unfold expression
  simp only [ensures_bind, ensures_here]
  refine ensures_ask hg mode hans ?_
  cases answer with
  | declined => exact herror rfl
  | brokeDown => exact hfail _ rfl (.inr ⟨rfl, rfl⟩)
  | accepted handle bytes =>
    dsimp only
    split
    · rename_i hc
      exact herror (if_pos hc)
    · rename_i hc
      have ht : call.taken? = some (handle, firstBytes bytes s.cursor.rest) := if_neg hc
      have hl := s.cursor.leads_firstBytes bytes
      obtain ⟨-, hpos, -⟩ := Call.taken?_eq_some ht
      refine ⟨reading_embed hs.place hl rfl rfl ht, ?_⟩
      have := hl.length_rest
      have hne : firstBytes bytes s.cursor.rest ≠ [] := fun h ↦ by
        rw [h] at hpos
        exact Nat.lt_irrefl 0 hpos
      have := List.length_pos_iff.2 hne
      show (s.cursor.past _).rest.length < _
      omega

/-- A token has been read, and the cursor has moved. -/
def TokenRead (source : List Char) (s : Recorded σ E) (a : Token E) (t : Recorded σ E) : Prop :=
  Reading source s [a] t ∧ t.cursor.rest.length < s.cursor.rest.length

/-- What an item of a row has read: a token, or the last tokens and the end of the row. -/
def ItemRead (source : List Char) (ended : β → Recorded σ E → Prop) (s : Recorded σ E) :
    Item (Token E) β → Recorded σ E → Prop
  | .one a, t => TokenRead source s a t
  | .last as b, t => Reading source s as t ∧ ended b t

/-- A row reads what its items read. It comes to its end, since each item but the last moves the
cursor and there are more rounds than characters. -/
theorem gather_reads {item : Reader (σ × List (Call E)) (Item (Token E) β)}
    {ended : β → Recorded σ E → Prop}
    (h : ∀ s, Settled source s → item.Ensures s (ItemRead source ended s) (Broken source))
    (n : Nat) (hs : Settled source s) (hn : s.cursor.rest.length < n) :
    (gather item n).Ensures s (fun r t ↦ Reading source s r.1 t ∧ ended r.2 t)
      (Broken source) := by
  induction n generalizing s with
  | zero => exact absurd hn (Nat.not_lt_zero _)
  | succ n ih =>
    unfold gather
    refine (h s hs).bind fun r t hr ↦ ?_
    cases r with
    | one a =>
      refine (ih (hs.of_reading hr.1) (by have := hr.2; omega)).bind fun r u hu ↦ ?_
      exact ⟨hr.1.cons hu.1, hu.2⟩
    | last as b => exact hr

/-- The rounds of a setup are enough for any row of the template. -/
theorem gather_rounds_reads {g : Setup (σ × List (Call E)) E} {parser : ExpressionParser σ E}
    (hg : g.Records parser source) {item : Reader (σ × List (Call E)) (Item (Token E) β)}
    {ended : β → Recorded σ E → Prop}
    (h : ∀ s, Settled source s → item.Ensures s (ItemRead source ended s) (Broken source))
    (hs : Settled source s) :
    (gather item g.rounds).Ensures s (fun r t ↦ Reading source s r.1 t ∧ ended r.2 t)
      (Broken source) :=
  gather_reads h _ hs (Nat.lt_of_le_of_lt hs.place.length_rest_le hg.rounds)

end

end Reader

end Pug

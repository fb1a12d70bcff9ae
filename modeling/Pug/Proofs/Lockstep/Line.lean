import Pug.Proofs.Layout.Inner
import Pug.Proofs.Lockstep.Code

/-!
# Lines in lockstep

What a line says is read alike, unless it is a lone `-`: the block below that is not on the line.
Blocks are read alike as well where the second template is closed behind the body and the lines are
at the same level.
-/

namespace Pug

open Text Token Reader

/-- The token is a block of code. -/
def Token.IsCode {E : Type} (t : Token E) : Prop :=
  t.kind = .codeBlock

/-- The line says a block of code. -/
def Token.SaysCode {E : Type} (line : Token E) : Prop :=
  ∃ payload : Token E, line.children = [payload] ∧ payload.IsCode

/-- A lone `-` stands at the front of a text. -/
def LoneHyphen (cs : List Char) : Prop :=
  ∃ rest, cs = '-' :: rest ∧ (firstLine rest).all isSpacing = true

namespace Link

variable {σ₁ σ₂ E₁ E₂ : Type} {L : Link σ₁ σ₂ E₁ E₂} {g₁ : Setup σ₁ E₁} {g₂ : Setup σ₂ E₂}
variable {c d : Cursor} {s : ReadState σ₁} {u : ReadState σ₂}

/-- The first run is lost on a line: the line holds a definition that only the second run rejects, or
it ends with a block whose unit the second run does not learn. -/
def Astray (L : Link σ₁ σ₂ E₁ E₂) (r : Token E₁ × LineTail) (t : ReadState σ₁) : Prop :=
  L.Barred r.1 ∨ L.Parted t ∧ r.2 = .plain

/-- The first run ends with code, with which the second may go on. -/
structure Cut (L : Link σ₁ σ₂ E₁ E₂) (Code : Token E₁ → Prop) (r : Token E₁ × LineTail)
    (t : ReadState σ₁) : Prop where
  severed : L.Severed t
  plain : r.2 = .plain
  code : Code r.1

/-- The first run is lost on a line that starts so, or with the block below it. -/
def Strays (L : Link σ₁ σ₂ E₁ E₂) (Code : Token E₁ → Prop) (front : List Char)
    (r : Token E₁ × LineTail) (t : ReadState σ₁) : Prop :=
  L.Astray r t ∨ LoneHyphen front ∧ L.Cut Code r t

theorem Barred.lenient {a : Token E₁} (h : L.Barred a) : L.Lenient := by
  obtain ⟨-, -, -, e, -, he⟩ := h
  exact L.excused_of_rejected e he

theorem Parted.lenient {t : ReadState σ₁} (h : L.Parted t) : L.Lenient := by
  obtain ⟨unit, -, hparts⟩ := h
  exact L.excused_of_parts unit hparts

theorem Astray.lenient {r : Token E₁ × LineTail} {t : ReadState σ₁} (h : L.Astray r t) :
    L.Lenient :=
  h.elim Barred.lenient fun h ↦ h.1.lenient

theorem Strays.lenient {Code : Token E₁ → Prop} {front : List Char} {r : Token E₁ × LineTail}
    {t : ReadState σ₁}
    (h : L.Strays Code front r t) : L.Lenient :=
  h.elim Astray.lenient fun h ↦ h.2.severed.lenient

theorem directive_runs (hg : L.Setups g₁ g₂) (keyword : Keyword) (h : L.Places c d) :
    L.RelUnless L.Astray L.Lines (Directive.line g₁ keyword c) (Directive.line g₂ keyword d) :=
  fun s u hs ↦ (directive_rel hg keyword h s u hs).mono_lost (fun _ _ ↦ .inl) fun _ _ _ _ ↦ id

theorem codeLine_runs (hg : L.Setups g₁ g₂) {level level' : Nat} (hs : L.States s u)
    {rest : List Char} (hr : s.cursor.rest = '-' :: rest)
    (hb : (L.Closed ∧ level = level') ∨ ¬LoneHyphen s.cursor.rest) :
    L.RunsUnless (L.Strays IsCode s.cursor.rest) (Code.line g₁ level) s (Code.line g₂ level') u
      fun a t b v ↦ L.Lines a b ∧ L.States t v := by
  refine RunsUnless.here ((bump_runsTo (w := ['-']) hs hr (unbroken_of_any rfl) rfl).bind
    fun _ t _ v ⟨ht, hc⟩ ↦ RunsUnless.here ?_)
  have hrest : t.cursor.rest = rest := by
    rw [hc]
    exact Cursor.rest_past_append _ _ _ hr
  rw [ht.places.atBlankLine]
  split
  · rename_i hblank
    have hlone : LoneHyphen s.cursor.rest := by
      refine ⟨rest, hr, ?_⟩
      rwa [Cursor.atBlankLine, Cursor.line, hrest] at hblank
    obtain ⟨hL, rfl⟩ := hb.resolve_right fun hb ↦ hb hlone
    have hmark := (tokenFrom_rel hs.places .codeBlock t v ht).of_ensures
      (tokenFrom_makes (by decide) _).ensures
    refine hmark.bind_lost ?_ fun _ _ h ↦ h.1.elim
    rintro a t' b v' ⟨hkind, hab, ht'⟩
    refine RunsUnless.bind (moveTo_rel ht.places.lineEnd t' v' ht') ?_
    rintro - t - v ⟨-, ht⟩
    have hblock := (block_rel hg hL level hab t v ht).of_ensures
      (Code.block_makes level hkind.1).ensures
    refine hblock.bind_lost ?_ ?_
    · rintro a t b v ⟨-, hab, ht⟩
      exact RelUnless.pure ⟨hab, rfl⟩ t v ht
    · rintro a t ⟨hparted | hsevered, hmakes⟩
      · exact (ensures_pure _).2 (.inl (.inr ⟨hparted, rfl⟩))
      · exact (ensures_pure _).2 (.inr ⟨hlone, hsevered, rfl, hmakes.2.trans hkind.2⟩)
  · have hsp := ht.places.skipSpacing
    dsimp only
    rw [hsp.ask atFront_onLine]
    split
    · rename_i keyword word hk
      have hp := hsp.keyword (Option.filter_eq_some_iff.1 hk).1
      refine RunsUnless.bind (moveTo_rel hp t v ht) ?_
      rintro - t - v ⟨-, ht⟩
      exact (directive_runs hg keyword hsp t v ht).mono_lost (fun _ _ ↦ .inl) fun _ _ _ _ ↦ id
    · refine RelUnless.bind (moveTo_rel hsp) (fun _ _ _ ↦ ?_) t v ht
      refine (statement_rel hg (.inr ?_)).bind fun a b hab ↦ .pure ⟨hab, rfl⟩
      rintro _ ⟨⟩
      exact List.not_mem_nil

theorem word_runs (hg : L.Setups g₁ g₂) : L.RelUnless L.Astray L.Lines (Line.word g₁) (Line.word g₂) := by
  refine here_rel.bind fun c d h ↦ ?_
  rw [h.ask atFront_onLine]
  split
  · rename_i keyword word hk
    exact (moveTo_rel (h.keyword hk)).bind fun _ _ _ ↦ directive_runs hg keyword h
  · obtain ⟨hname, ⟨others, ho⟩, hw⟩ := h.tag
    dsimp only
    rw [hname]
    exact (moveTo_rel (h.past ho hw)).bind fun _ _ _ ↦ .of_rel (tagLine_rel hg h ho hw)

theorem dot_runsTo (hs : L.States s u) {rest : List Char} (hr : s.cursor.rest = '.' :: rest) :
    L.RunsTo Line.dot s Line.dot u fun a t b v ↦ L.Lines a b ∧ L.States t v :=
  (closingMark_runsTo hs hr rfl rfl _ _).bind fun _ _ _ v ⟨hab, ht⟩ ↦ .inr ⟨_, v, rfl, ⟨hab, rfl⟩, ht⟩

theorem piped_runsTo (hg : L.Setups g₁ g₂) (hs : L.States s u) {rest : List Char}
    (hr : s.cursor.rest = '|' :: rest) :
    L.RunsTo (Line.piped g₁) s (Line.piped g₂) u fun a t b v ↦ L.Lines a b ∧ L.States t v := by
  refine (bump_runsTo (w := ['|']) hs hr (unbroken_of_any rfl) rfl).bind fun _ t _ v ⟨ht, _⟩ ↦ ?_
  refine RelUnless.bind skipSpacing_rel (fun _ _ _ ↦ ?_) t v ht
  exact (onLine_rel hg).bind fun a b hab ↦ .pure ⟨hab, rfl⟩

theorem lineOutput_runsTo (hg : L.Setups g₁ g₂) (hs : L.States s u) {w rest : List Char} {mark : Nat}
    (hr : s.cursor.rest = w ++ rest) (hw : ∀ x ∈ w, isBreak x = false)
    (hsize : byteLength w = mark) (kind : Kind) :
    L.RunsTo (Line.output g₁ kind mark) s (Line.output g₂ kind mark) u
      fun a t b v ↦ L.Lines a b ∧ L.States t v := by
  refine (output_runsTo hg hs hr hw hsize kind _).bind fun a t b v ⟨hab, ht⟩ ↦ ?_
  exact (endRun_rel false).bind (fun _ _ _ ↦ .pure ⟨hab, rfl⟩) t v ht

/-- The rest of a line, without the blanks at its end. -/
theorem Places.lineText (h : L.Places c d) (kind : Kind) :
    L.Tokens (Token.ofText kind c (trimEnd c.line)) (Token.ofText kind d (trimEnd d.line)) := by
  obtain ⟨blanks, ht, -⟩ := exists_eq_trimEnd_append c.line
  have hline := c.leads_lineEnd.1
  rw [ht, List.append_assoc] at hline
  rw [h.line_eq]
  refine h.ofText hline (fun x hx ↦ unbroken_firstLine c.rest x ?_) kind
  change x ∈ c.line
  rw [ht]
  exact List.mem_append_left _ hx

theorem raw_rel : L.Rel L.Lines Line.raw Line.raw :=
  here_rel.bind fun _ _ h ↦ skipLine_rel.bind fun _ _ _ ↦ .pure ⟨h.lineText _, rfl⟩

/-- A word that is not in front is not passed. -/
theorem eatMark_runsTo (hs : L.States s u) {word : String} (hw : word.toList.any isBreak = false) :
    L.RunsTo (eat word) s (eat word) u
      fun a t b v ↦ b = a ∧ L.States t v ∧ (a = false → t.cursor = s.cursor) := by
  refine RunsUnless.here ?_
  rw [hs.places.startsWith hw]
  split
  · rename_i h
    have hp := hs.places.past (Cursor.leads_of_startsWith h).1 (unbroken_of_any hw)
    exact .inr ⟨true, { u with cursor := u.cursor.past word.toList }, rfl, rfl,
      ⟨hp, hs.parsers, hs.units⟩, nofun⟩
  · exact .inr ⟨false, u, rfl, rfl, hs, fun _ ↦ rfl⟩

theorem comment_runsTo (hg : L.Setups g₁ g₂) (hs : L.States s u) {rest : List Char}
    (hr : s.cursor.rest = '/' :: '/' :: rest) :
    L.RunsTo (Line.comment g₁) s (Line.comment g₂) u fun a t b v ↦ L.Lines a b ∧ L.States t v := by
  refine RunsUnless.here ((eatMark_runsTo hs (by decide)).bind ?_)
  rintro _ t eaten v ⟨rfl, ht, hc⟩
  cases eaten with
  | true =>
    refine (tokenFrom_rel hs.places _).bind (fun a b hab ↦ here_rel.bind fun c d h ↦ ?_) t v ht
    refine skipLine_rel.bind fun _ _ _ ↦ .pure ⟨tokens_withChildren hab ?_, rfl⟩
    rw [h.line_eq]
    split
    · exact tokenLists_nil
    · have htext := h.lineText .plainText
      rw [h.line_eq] at htext
      exact tokenLists_singleton htext
  | false =>
    have hr' : t.cursor.rest = ['/', '/'] ++ rest := by rw [hc rfl]; exact hr
    refine (bump_runsTo ht hr' (unbroken_of_any rfl) rfl).bind fun _ t _ v ⟨ht, _⟩ ↦ ?_
    refine (tokenFrom_rel hs.places _).bind (fun a b hab ↦ ?_) t v ht
    rw [hg.maxDepth]
    refine (TextRun.pieces_rel hg (inlineTag_runsTo hg _)).bind fun as bs hts ↦ ?_
    exact .pure ⟨tokens_withChildren hab hts, rfl⟩

theorem arguments_rel (hg : L.Setups g₁ g₂) :
    L.Rel L.TokenLists (Line.arguments g₁) (Line.arguments g₂) := by
  refine (eat_rel (by decide)).bind ?_
  rintro eaten _ rfl
  refine .ite Iff.rfl (fun _ ↦ ?_) fun _ ↦ .pure tokenLists_nil
  refine skipSpacing_rel.bind fun _ _ _ ↦ (eat_rel (by decide)).bind ?_
  rintro eaten _ rfl
  refine .ite Iff.rfl (fun _ ↦ .pure tokenLists_nil) fun _ ↦ (hg.inline_rel _).bind fun e f he ↦ ?_
  refine skipSpacing_rel.bind fun _ _ _ ↦ (eat_rel (by decide)).bind ?_
  rintro eaten _ rfl
  refine .ite Iff.rfl (fun _ ↦ .pure ?_) fun _ ↦ here_rel.bind fun c d h ↦ failAt_rel h _
  refine tokenLists_singleton (tokens_withExpr ?_ he)
  rw [Tokens, Recast.token_leaf, he.1]
  rfl

theorem call_runsTo (hg : L.Setups g₁ g₂) (hs : L.States s u) {rest : List Char}
    (hr : s.cursor.rest = '+' :: rest) :
    L.RunsTo (Line.call g₁) s (Line.call g₂) u fun a t b v ↦ L.Lines a b ∧ L.States t v := by
  refine (bump_runsTo (w := ['+']) hs hr (unbroken_of_any rfl) rfl).bind fun _ t _ v ⟨ht, _⟩ ↦ ?_
  refine here_rel.bind (fun c d h ↦ ?_) t v ht
  obtain ⟨hname, ⟨others, ho⟩, hw⟩ := h.tag
  dsimp only
  rw [hname]
  refine .ite Iff.rfl (fun _ ↦ failAt_rel h _) fun _ ↦ ?_
  refine (moveTo_rel (h.past ho hw)).bind fun _ _ _ ↦ (arguments_rel hg).bind fun as bs hts ↦ ?_
  refine (lineParts_rel hg).bind fun r r' hr ↦ .pure ⟨?_, hr.2.symm⟩
  refine tokens_withChildren (h.ofText ho hw _) ?_
  rw [TokenLists, Recast.tokens_append, ← hr.1, ← hts]

/-- What a line says. Below a lone `-` the runs must be at the same level, and the second template
closed; then the first run may be lost with the block. -/
theorem payload_runs (hg : L.Setups g₁ g₂) {level level' : Nat} (hs : L.States s u)
    (hb : (L.Closed ∧ level = level') ∨ ¬LoneHyphen s.cursor.rest) :
    L.RunsUnless (L.Strays IsCode s.cursor.rest) (Line.payload g₁ level) s (Line.payload g₂ level') u
      fun a t b v ↦ L.Lines a b ∧ L.States t v := by
  refine RunsUnless.here ?_
  have honLine : OnLine Line.Form.ofRest := fun _ hm ↦ Line.ofRest_append hm
  have hfront := Line.standsAt_ofRest s.cursor.rest
  rw [hs.places.ask honLine]
  cases hf : Line.Form.ofRest s.cursor.rest with
  | shorthand => exact .mono (tagLine_rel hg hs.places rfl (List.forall_mem_nil _) s u hs) fun _ _ _ _ ↦ id
  | comment =>
    rw [hf] at hfront
    obtain ⟨rest, hr⟩ := hfront
    exact (comment_runsTo hg hs hr).mono fun _ _ _ _ ↦ id
  | word => exact (word_runs hg s u hs).mono_lost (fun _ _ ↦ .inl) fun _ _ _ _ ↦ id
  | dot =>
    rw [hf] at hfront
    obtain ⟨rest, hr⟩ := hfront
    exact (dot_runsTo hs hr).mono fun _ _ _ _ ↦ id
  | piped =>
    rw [hf] at hfront
    obtain ⟨rest, hr⟩ := hfront
    exact (piped_runsTo hg hs hr).mono fun _ _ _ _ ↦ id
  | output kind mark =>
    have hmark : ∀ cs, Line.Form.ofRest cs = .output kind mark →
        ∃ w others, cs = w ++ others ∧ byteLength w = mark := by
      intro cs h
      have hcs := Line.standsAt_ofRest cs
      rw [h] at hcs
      obtain ⟨w, rest, hr, hsize, -⟩ := hcs
      exact ⟨w, rest, hr, hsize⟩
    obtain ⟨w, rest, hr, hsize, hw⟩ := honLine.exists_front hmark hf
    exact (lineOutput_runsTo hg hs hr hw hsize kind).mono fun _ _ _ _ ↦ id
  | code =>
    rw [hf] at hfront
    obtain ⟨rest, hr⟩ := hfront
    exact codeLine_runs hg hs hr hb
  | call =>
    rw [hf] at hfront
    obtain ⟨rest, hr⟩ := hfront
    exact (call_runsTo hg hs hr).mono fun _ _ _ _ ↦ id
  | raw => exact .mono (raw_rel s u hs) fun _ _ _ _ ↦ id
  | unknown => exact failAt_rel hs.places _ s u hs

/-- The line around what it says, read without moving. -/
theorem lineFrom_of_ok {σ E : Type} {c : Cursor} {a b : Token E} {s t : ReadState σ}
    (h : lineFrom c a s = .ok b t) : t = s ∧ b.children = [a] := by
  obtain ⟨d, s', hhere, h⟩ := bind_eq_ok.1 h
  cases hhere
  obtain ⟨text, s', htext, h⟩ := bind_eq_ok.1 h
  unfold textBetween at htext
  split at htext
  · cases htext
    cases h
    exact ⟨rfl, rfl⟩
  · contradiction

/-- A tree with the definition among its children. -/
theorem Barred.of_child {a b : Token E₁} (h : L.Barred a) (hb : b.children = [a]) : L.Barred b := by
  obtain ⟨t, ht, hdef⟩ := h
  refine ⟨t, ?_, hdef⟩
  rw [preorder_eq, hb, preorderAll_cons, preorderAll_nil, List.append_nil, ← preorder_eq]
  exact List.mem_cons_of_mem _ ht

/-- A line that says a block of code. -/
theorem Cut.of_child {a b : Token E₁} {tail : LineTail} {t : ReadState σ₁}
    (h : L.Cut IsCode (a, tail) t) (hb : b.children = [a]) : L.Cut SaysCode (b, tail) t :=
  ⟨h.severed, h.plain, a, hb, h.code⟩

theorem markup_runs (hg : L.Setups g₁ g₂) {level level' : Nat} (hs : L.States s u)
    (hb : (L.Closed ∧ level = level') ∨ ¬LoneHyphen s.cursor.rest) :
    L.RunsUnless (L.Strays SaysCode s.cursor.rest) (Line.markup g₁ level) s (Line.markup g₂ level') u
      fun a t b v ↦ L.Lines a b ∧ L.States t v := by
  refine RunsUnless.here ((payload_runs hg hs hb).bind_lost (fun r t r' v ⟨hr, ht⟩ ↦ ?_)
    fun r t hlost ↦ hlost.lenient.ensures fun r' t' hread ↦ ?_)
  · refine RelUnless.bind (lineFrom_rel hs.places hr.1) (fun a b hab ↦ ?_) t v ht
    exact .pure ⟨hab, hr.2⟩
  · obtain ⟨line, t'', hline, hread⟩ := bind_eq_ok.1 hread
    cases hread
    obtain ⟨rfl, hchildren⟩ := lineFrom_of_ok hline
    exact hlost.imp (.imp_left (Barred.of_child · hchildren)) (.imp_right (Cut.of_child · hchildren))

theorem bareText_rel : L.Rel L.Tokens Line.bareText Line.bareText := by
  refine here_rel.bind fun c d h ↦ (moveTo_rel h.lineEnd).bind fun _ _ _ ↦ ?_
  refine (tokenFrom_rel h _).bind fun a b hab ↦ (tokenFrom_rel h _).bind fun a' b' hab' ↦ ?_
  exact .pure (tokens_withChildren hab (tokenLists_singleton hab'))

theorem verbatim_rel (hg : L.Setups g₁ g₂) (interpolate : Bool) :
    L.Rel L.Tokens (Line.verbatim g₁ interpolate) (Line.verbatim g₂ interpolate) := by
  refine here_rel.bind fun c d h ↦ ?_
  refine .ite Iff.rfl (fun _ ↦ ?_) fun _ ↦ ?_
  · exact (onLine_rel hg).bind fun _ _ hab ↦ lineFrom_rel h hab
  · exact bareText_rel.bind fun _ _ hab ↦ lineFrom_rel h hab

end Link

end Pug

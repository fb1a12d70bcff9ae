import Pug.Proofs.Lockstep.Attribute
import Pug.Proofs.Reading.Tag

/-!
# Text and tags in lockstep

Runs of text and the parts of tags are read alike, inline tags by induction on the levels that may
still be opened.
-/

namespace Pug.Link

open Text Token Reader

variable {σ₁ σ₂ E₁ E₂ : Type} {L : Link σ₁ σ₂ E₁ E₂} {g₁ : Setup σ₁ E₁} {g₂ : Setup σ₂ E₂}
variable {s : ReadState σ₁} {u : ReadState σ₂}

/-- A token with an expression that corresponds. -/
theorem tokens_withExpr {a : Token E₁} {b : Token E₂} {e : Embedded E₁} {f : Embedded E₂}
    (h : L.Tokens a b) (he : L.Exprs e f) : L.Tokens (a.withExpr e) (b.withExpr f) := by
  rw [Tokens, Recast.token_withExpr, h, he.1]

/-- A token with children that correspond. -/
theorem tokens_withChildren {a : Token E₁} {b : Token E₂} {as : List (Token E₁)}
    {bs : List (Token E₂)} (h : L.Tokens a b) (hs : L.TokenLists as bs) :
    L.Tokens (a.withChildren as) (b.withChildren bs) := by
  rw [Tokens, Recast.token_withChildren, h, hs]

theorem tokenLists_nil : L.TokenLists [] [] :=
  (Recast.tokens_nil _).symm

theorem tokenLists_singleton {a : Token E₁} {b : Token E₂} (h : L.Tokens a b) :
    L.TokenLists [a] [b] := by
  rw [TokenLists, Recast.tokens_cons, Recast.tokens_nil, h]

theorem tokenLists_isEmpty {as : List (Token E₁)} {bs : List (Token E₂)} (h : L.TokenLists as bs) :
    bs.isEmpty = as.isEmpty := by
  rw [h, Recast.isEmpty_tokens]

/-- A mark is no line break. -/
theorem isBreak_of_isMark {c : Char} (h : isMark c = true) : isBreak c = false := by
  by_contra hb
  rw [Bool.not_eq_false, isBreak, Bool.or_eq_true, beq_iff_eq, beq_iff_eq] at hb
  rcases hb with rfl | rfl <;> revert h <;> decide

/-- Readers of inline tags that correspond where an inline tag opens. -/
def InlineTags (L : Link σ₁ σ₂ E₁ E₂) (inlineTag₁ : Reader σ₁ (Token E₁))
    (inlineTag₂ : Reader σ₂ (Token E₂)) : Prop :=
  ∀ s u rest, L.States s u → s.cursor.rest = '#' :: '[' :: rest →
    L.RunsTo inlineTag₁ s inlineTag₂ u fun a t b v ↦ L.Tokens a b ∧ L.States t v

section

variable {inlineTag₁ : Reader σ₁ (Token E₁)} {inlineTag₂ : Reader σ₂ (Token E₂)}
variable {interpolated : Bool}

theorem TextRun.output_runsTo (hg : L.Setups g₁ g₂) (hs : L.States s u) {w rest : List Char}
    (hr : s.cursor.rest = w ++ rest) (hw : ∀ x ∈ w, isBreak x = false) (hsize : byteLength w = 2)
    (kind : Kind) : L.RunsTo (TextRun.output g₁ kind) s (TextRun.output g₂ kind) u
      fun a t b v ↦ L.Tokens a b ∧ L.States t v := by
  refine RunsUnless.here ((bump_runsTo hs hr hw hsize).bind fun _ t _ v ⟨ht, _⟩ ↦ ?_)
  refine (hg.inline_rel _).bind (fun e f he ↦ (eat_rel (by decide)).bind ?_) t v ht
  rintro eaten _ rfl
  refine .ite Iff.rfl (fun _ ↦ ?_) fun _ ↦ here_rel.bind fun c' d' h' ↦ failAt_rel h' _
  exact (tokenFrom_rel hs.places kind).bind fun a b hab ↦ .pure (tokens_withExpr hab he)

theorem ofRest_onLine (interpolated : Bool) : OnLine (TextRun.Front.ofRest interpolated) :=
  fun _ hm ↦ TextRun.ofRest_append hm interpolated

theorem TextRun.piece_rel (hg : L.Setups g₁ g₂) (hi : L.InlineTags inlineTag₁ inlineTag₂) :
    L.Rel (L.ItemRel Eq) (TextRun.piece g₁ inlineTag₁ interpolated)
      (TextRun.piece g₂ inlineTag₂ interpolated) := by
  intro s u hs
  refine RunsUnless.here ?_
  rw [hs.places.ask (ofRest_onLine interpolated)]
  cases hf : TextRun.Front.ofRest interpolated s.cursor.rest with
  | finished => exact RelUnless.pure ⟨tokenLists_nil, rfl⟩ s u hs
  | output kind =>
    have hopen : ∀ cs, TextRun.Front.ofRest interpolated cs = .output kind →
        ∃ w others, cs = w ++ others ∧ byteLength w = 2 := by
      intro cs h
      obtain ⟨mark, rest, hr, hsize, -⟩ := TextRun.output_of_front h
      exact ⟨[mark, '\x7b'], rest, hr, by rw [byteLength_cons, hsize]; rfl⟩
    obtain ⟨w, rest, hr, hsize, hw⟩ := (ofRest_onLine interpolated).exists_front hopen hf
    exact one_runsTo (TextRun.output_runsTo hg hs hr hw hsize kind)
  | inlineTag =>
    obtain ⟨rest, hr⟩ := TextRun.inlineTag_of_front hf
    exact one_runsTo (hi s u rest hs hr)
  | literal escape text =>
    have hliteral : ∀ cs, TextRun.Front.ofRest interpolated cs = .literal escape text →
        ∃ w others, cs = w ++ others ∧ ∃ mark, w = mark ++ text ∧ byteLength mark = escape := by
      intro cs h
      obtain ⟨mark, others, hr, hsize, -, -⟩ := TextRun.literal_of_front h
      exact ⟨mark ++ text, others, by rw [List.append_assoc, ← hr], mark, rfl, hsize⟩
    obtain ⟨_, others, hr, ⟨mark, rfl, hsize⟩, hw⟩ :=
      (ofRest_onLine interpolated).exists_front hliteral hf
    rw [List.append_assoc] at hr
    rw [List.forall_mem_append] at hw
    refine (bump_runsTo hs hr hw.1 hsize).bind fun _ t _ v ⟨ht, hc⟩ ↦ RunsUnless.here ?_
    have hrest : t.cursor.rest = text ++ others := by
      rw [hc]
      exact Cursor.rest_past_append _ _ _ hr
    refine (moveTo_rel (ht.places.past hrest hw.2)).bind (fun _ _ _ ↦ .pure ?_) t v ht
    exact ht.places.ofText hrest hw.2 .plainText

theorem TextRun.pieces_rel (hg : L.Setups g₁ g₂) (hi : L.InlineTags inlineTag₁ inlineTag₂) :
    L.Rel L.TokenLists (TextRun.pieces g₁ inlineTag₁ interpolated)
      (TextRun.pieces g₂ inlineTag₂ interpolated) :=
  (hg.gather_rel (TextRun.piece_rel hg hi)).bind fun _ _ h ↦ .pure h.1

theorem TextRun.run_rel (hg : L.Setups g₁ g₂) (hi : L.InlineTags inlineTag₁ inlineTag₂) :
    L.Rel L.Tokens (TextRun.run g₁ inlineTag₁ interpolated)
      (TextRun.run g₂ inlineTag₂ interpolated) := by
  refine here_rel.bind fun c d h ↦ (TextRun.pieces_rel hg hi).bind fun as bs hts ↦ ?_
  exact (tokenFrom_rel h _).bind fun a b hab ↦ .pure (tokens_withChildren hab hts)

open Tag hiding ofRest_append

theorem note_runsTo (hs : L.States s u) {mark : Char} {rest : List Char}
    (hr : s.cursor.rest = mark :: rest) (hm : isMark mark = true) (kind : Kind) :
    L.RunsTo (note kind) s (note kind) u fun a t b v ↦ L.Tokens a b ∧ L.States t v := by
  refine (bump_runsTo (w := [mark]) hs hr (by simpa using isBreak_of_isMark hm)
    (utf8Size_of_isMark hm)).bind fun _ t _ v ⟨ht, _⟩ ↦ ?_
  refine here_rel.bind (fun c d h ↦ ?_) t v ht
  have honLine : OnLine Name.plain := fun _ hm ↦ Name.plain_append hm
  have hw := (List.takeWhile_append_dropWhile (p := Name.isChar) (l := c.rest)).symm
  have hname := honLine.unbroken (fun _ ↦ ⟨_, List.takeWhile_append_dropWhile.symm⟩) c.rest
  rw [h.ask honLine]
  exact (moveTo_rel (h.past hw hname)).bind fun _ _ _ ↦ .pure (h.ofText hw hname kind)

theorem spread_runsTo (hg : L.Setups g₁ g₂) (hs : L.States s u)
    (hr : spreadOpener.toList.isPrefixOf s.cursor.rest = true) :
    L.RunsTo (spread g₁) s (spread g₂) u fun a t b v ↦ L.Tokens a b ∧ L.States t v := by
  obtain ⟨rest, hr⟩ := List.isPrefixOf_iff_prefix.1 hr
  refine RunsUnless.here ((bump_runsTo hs hr.symm (unbroken_of_any (by decide)) (by decide)).bind
    fun _ t _ v ⟨ht, _⟩ ↦ ?_)
  refine (hg.inline_rel _).bind (fun e f he ↦ skipSpacing_rel.bind fun _ _ _ ↦
    (eat_rel (by decide)).bind ?_) t v ht
  rintro eaten _ rfl
  refine .ite Iff.rfl (fun _ ↦ ?_) fun _ ↦ here_rel.bind fun c' d' h' ↦ failAt_rel h' _
  exact (tokenFrom_rel hs.places _).bind fun a b hab ↦ .pure (tokens_withExpr hab he)

theorem output_runsTo (hg : L.Setups g₁ g₂) (hs : L.States s u) {w rest : List Char} {mark : Nat}
    (hr : s.cursor.rest = w ++ rest) (hw : ∀ x ∈ w, isBreak x = false)
    (hsize : byteLength w = mark) (kind : Kind) (site : Site) :
    L.RunsTo (output g₁ kind mark site) s (output g₂ kind mark site) u
      fun a t b v ↦ L.Tokens a b ∧ L.States t v := by
  refine RunsUnless.here ((bump_runsTo hs hr hw hsize).bind fun _ t _ v ⟨ht, _⟩ ↦ ?_)
  refine (hg.inline_rel _).bind (fun e f he ↦ ?_) t v ht
  exact (tokenFrom_rel hs.places kind).bind fun a b hab ↦ .pure (tokens_withExpr hab he)

theorem closingMark_runsTo (hs : L.States s u) {mark : Char} {rest : List Char}
    (hr : s.cursor.rest = mark :: rest) (hm : isBreak mark = false) (hsize : byteLength [mark] = 1)
    (kind : Kind) (interpolated : Bool) :
    L.RunsTo (closingMark kind interpolated) s (closingMark kind interpolated) u
      fun a t b v ↦ L.Tokens a b ∧ L.States t v := by
  refine RunsUnless.here ((bump_runsTo (w := [mark]) hs hr (by simpa using hm) hsize).bind
    fun _ t _ v ⟨ht, _⟩ ↦ ?_)
  refine (tokenFrom_rel hs.places kind).bind (fun a b hab ↦ ?_) t v ht
  exact (endRun_rel interpolated).bind fun _ _ _ ↦ .pure hab

theorem text_runsTo (hg : L.Setups g₁ g₂) (hi : L.InlineTags inlineTag₁ inlineTag₂)
    (hs : L.States s u) {c : Char} {rest : List Char} (hr : s.cursor.rest = c :: rest)
    (hc : isSpacing c = true) :
    L.RunsTo (text g₁ inlineTag₁ interpolated) s (text g₂ inlineTag₂ interpolated) u
      fun as t bs v ↦ L.TokenLists as bs ∧ L.States t v := by
  refine (bump_runsTo (w := [c]) hs hr (by simpa using isBreak_of_isSpacing hc)
    (utf8Size_of_isSpacing hc)).bind fun _ t _ v ⟨ht, _⟩ ↦ ?_
  refine here_rel.bind (fun c d h ↦ ?_) t v ht
  refine .ite (by rw [h.atBlankLine]) (fun _ ↦ ?_) fun _ ↦ ?_
  · exact skipLine_rel.bind fun _ _ _ ↦ .pure tokenLists_nil
  · refine (TextRun.run_rel hg hi).bind fun a b hab ↦ .pure ?_
    have he : b.children.isEmpty = a.children.isEmpty := by
      rw [hab, Recast.children_token]
      exact tokenLists_isEmpty rfl
    rw [he]
    split
    · exact tokenLists_nil
    · exact tokenLists_singleton hab

theorem part_rel (hg : L.Setups g₁ g₂) (hi : L.InlineTags inlineTag₁ inlineTag₂) :
    L.Rel (L.ItemRel Eq) (part g₁ inlineTag₁ interpolated) (part g₂ inlineTag₂ interpolated) := by
  intro s u hs
  refine RunsUnless.here ?_
  have honLine : OnLine (Part.ofRest interpolated) := fun _ hm ↦ Tag.ofRest_append hm interpolated
  have hfront := standsAt_ofRest interpolated s.cursor.rest
  rw [hs.places.ask honLine]
  cases hp : Part.ofRest interpolated s.cursor.rest with
  | finished => exact RelUnless.pure ⟨tokenLists_nil, rfl⟩ s u hs
  | note kind =>
    rw [hp] at hfront
    obtain ⟨mark, rest, hr, hm, -⟩ := hfront
    exact one_runsTo (note_runsTo hs hr hm kind)
  | dotBlock =>
    rw [hp] at hfront
    obtain ⟨rest, hr⟩ := hfront
    exact (closingMark_runsTo hs hr rfl rfl _ _).bind fun a t b v ⟨hab, ht⟩ ↦
      .inr ⟨_, v, rfl, ⟨tokenLists_singleton hab, rfl⟩, ht⟩
  | attributes =>
    rw [hp] at hfront
    obtain ⟨rest, hr⟩ := hfront
    exact one_runsTo (list_runsTo hg hs hr)
  | spread =>
    rw [hp] at hfront
    exact one_runsTo (spread_runsTo hg hs hfront)
  | selfClose =>
    rw [hp] at hfront
    obtain ⟨rest, hr⟩ := hfront
    exact (closingMark_runsTo hs hr rfl rfl _ _).bind fun a t b v ⟨hab, ht⟩ ↦
      .inr ⟨_, v, rfl, ⟨tokenLists_singleton hab, rfl⟩, ht⟩
  | output kind mark =>
    have hmark : ∀ cs, Part.ofRest interpolated cs = .output kind mark →
        ∃ w others, cs = w ++ others ∧ byteLength w = mark := by
      intro cs h
      have hcs := standsAt_ofRest interpolated cs
      rw [h] at hcs
      obtain ⟨w, rest, hr, hsize, -⟩ := hcs
      exact ⟨w, rest, hr, hsize⟩
    obtain ⟨w, rest, hr, hsize, hw⟩ := honLine.exists_front hmark hp
    refine (output_runsTo hg hs hr hw hsize kind _).bind fun a t b v ⟨hab, ht⟩ ↦ ?_
    exact (endRun_rel _).bind (fun _ _ _ ↦ .pure ⟨tokenLists_singleton hab, rfl⟩) t v ht
  | follow =>
    rw [hp] at hfront
    obtain ⟨-, rest, hr⟩ := hfront
    exact (bump_runsTo (w := [':']) hs hr (unbroken_of_any rfl) rfl).bind fun _ t _ v ⟨ht, _⟩ ↦
      .inr ⟨_, v, rfl, ⟨tokenLists_nil, rfl⟩, ht⟩
  | text =>
    rw [hp] at hfront
    obtain ⟨c, rest, hr, hc⟩ := hfront
    exact (text_runsTo hg hi hs hr hc).bind fun as t bs v ⟨hts, ht⟩ ↦
      .inr ⟨_, v, rfl, ⟨hts, rfl⟩, ht⟩
  | unexpected => exact failAt_rel hs.places _ s u hs

theorem parts_rel (hg : L.Setups g₁ g₂) (hi : L.InlineTags inlineTag₁ inlineTag₂) :
    L.Rel (fun r r' ↦ L.TokenLists r.1 r'.1 ∧ r.2 = r'.2) (parts g₁ inlineTag₁ interpolated)
      (parts g₂ inlineTag₂ interpolated) :=
  hg.gather_rel (part_rel hg hi)

theorem wrap_rel {c d : Cursor} (h : L.Places c d) {a : Token E₁} {b : Token E₂}
    (hab : L.Tokens a b) : L.Rel L.Tokens (wrap c a) (wrap d b) :=
  (tokenFrom_rel h _).bind fun _ _ ht ↦ .pure (tokens_withChildren ht (tokenLists_singleton hab))

theorem isShorthand_eq {as : List (Token E₁)} {bs : List (Token E₂)} (h : L.TokenLists as bs) :
    isShorthand bs = isShorthand as := by
  cases as with
  | nil =>
    rw [h, Recast.tokens_nil]
    rfl
  | cons a as => simp [h, isShorthand]

/-- The name of a tag in front, which both runs pass. -/
theorem Places.tag {c d : Cursor} (h : L.Places c d) :
    Name.tag d.rest = Name.tag c.rest ∧ (∃ others, c.rest = Name.tag c.rest ++ others) ∧
      ∀ x ∈ Name.tag c.rest, isBreak x = false := by
  have honLine : OnLine Name.tag := fun _ hm ↦ Name.tag_append hm
  exact ⟨h.ask honLine, Name.exists_eq_tag_append _, honLine.unbroken Name.exists_eq_tag_append _⟩

theorem inlineWith_runsTo (hg : L.Setups g₁ g₂) (hi : L.InlineTags inlineTag₁ inlineTag₂) :
    L.InlineTags (inlineWith g₁ inlineTag₁) (inlineWith g₂ inlineTag₂) := by
  intro s u rest hs hr
  refine RunsUnless.here ((bump_runsTo (w := ['#', '[']) hs hr (unbroken_of_any rfl) rfl).bind
    fun _ t _ v ⟨ht, _⟩ ↦ ?_)
  refine here_rel.bind (fun c' d' h' ↦ ?_) t v ht
  obtain ⟨hname, ⟨others, ho⟩, hw⟩ := h'.tag
  rw [hname]
  refine (moveTo_rel (h'.past ho hw)).bind fun _ _ _ ↦ (parts_rel hg hi).bind fun r r' hr ↦ ?_
  refine .ite (by rw [isShorthand_eq hr.1]) (fun _ ↦ failAt_rel hs.places _) fun _ ↦ ?_
  refine (eat_rel (by decide)).bind ?_
  rintro eaten _ rfl
  refine .ite Iff.rfl (fun _ ↦ ?_) fun _ ↦ here_rel.bind fun c' d' h' ↦ failAt_rel h' _
  exact wrap_rel hs.places (tokens_withChildren (h'.ofText ho hw .tag) hr.1)

end

theorem inlineTag_runsTo (hg : L.Setups g₁ g₂) (levels : Nat) :
    L.InlineTags (Tag.inlineTag g₁ levels) (Tag.inlineTag g₂ levels) := by
  induction levels with
  | zero =>
    intro s u rest hs hr
    refine here_rel.bind (fun c d h ↦ ?_) s u hs
    rw [hg.maxDepth]
    exact failWithHelp_rel h _ _
  | succ levels ih => exact inlineWith_runsTo hg ih

theorem lineParts_rel (hg : L.Setups g₁ g₂) :
    L.Rel (fun r r' ↦ L.TokenLists r.1 r'.1 ∧ r.2 = r'.2) (Tag.lineParts g₁) (Tag.lineParts g₂) := by
  rw [Tag.lineParts, Tag.lineParts, hg.maxDepth]
  exact parts_rel hg (inlineTag_runsTo hg _)

/-- What both runs have read of a line. -/
def Lines (L : Link σ₁ σ₂ E₁ E₂) (r : Token E₁ × LineTail) (r' : Token E₂ × LineTail) : Prop :=
  L.Tokens r.1 r'.1 ∧ r'.2 = r.2

theorem tagLine_rel (hg : L.Setups g₁ g₂) {c d : Cursor} (h : L.Places c d) {name rest : List Char}
    (hr : c.rest = name ++ rest) (hw : ∀ x ∈ name, isBreak x = false) :
    L.Rel L.Lines (Tag.line g₁ c name) (Tag.line g₂ d name) := by
  refine (lineParts_rel hg).bind fun r r' hparts ↦ ?_
  refine (wrap_rel h (tokens_withChildren (h.ofText hr hw .tag) hparts.1)).bind fun a b hab ↦ ?_
  exact .pure ⟨hab, hparts.2.symm⟩

theorem onLine_rel (hg : L.Setups g₁ g₂) :
    L.Rel L.Tokens (TextRun.onLine g₁) (TextRun.onLine g₂) := by
  rw [TextRun.onLine, TextRun.onLine, hg.maxDepth]
  exact TextRun.run_rel hg (inlineTag_runsTo hg _)

end Pug.Link

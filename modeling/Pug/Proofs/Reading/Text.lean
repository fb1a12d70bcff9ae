import Pug.Grammar.Text
import Pug.Proofs.Reading.Step

/-!
# Readings of text

A run of text is read as its pieces, whatever reader reads the inline tags in it, as long as that
reads a token wherever an inline tag opens. A run ends at the end of the line or, inside an inline
tag, before its `]`.
-/

namespace Pug.TextRun

open Text Token Reader
open ExpressionParser (Call)

variable {σ E : Type} {source : List Char} {s : Recorded σ E}
variable {g : Setup (σ × List (Call E)) E} {parser : ExpressionParser σ E}

/-- A reader of inline tags: it reads a token where an inline tag opens. -/
def ReadsInlineTags (source : List Char) (inlineTag : Reader (σ × List (Call E)) (Token E)) :
    Prop :=
  ∀ (s : Recorded σ E) (rest : List Char), Settled source s → s.cursor.rest = '#' :: '[' :: rest →
    inlineTag.Ensures s (TokenRead source s) (Broken source)

/-- An opener of two characters and what stands behind it. -/
theorem leads_opener {c : Cursor} {x y : Char} {rest : List Char} (h : c.rest = x :: y :: rest) :
    c.Leads [x, y] (c.past [x, y]) :=
  Cursor.leads_past h

/-- A token around an expression that starts where the cursor is. -/
theorem reading_around {m n t : Recorded σ E} {v w x : List Char} {e : Embedded E} {kind : Kind}
    (hs : Place source s.cursor) (a : Moved s v m) (h : Reading source m [argument e] n)
    (b : Moved n w t) (hk : kind.isContainer = false) (hx : s.cursor.Leads x t.cursor) :
    Reading source s [(ofText kind s.cursor x).withExpr e] t := by
  have hst := hs.stands hx
  rw [← hx.2] at hst
  have := h.around a b hk (Nat.le_refl _) (Nat.le_trans a.leads.offset_le h.argument_bounds.1)
    (.nil_of_le source (Nat.le_refl _)) hst
  rwa [ofText, Token.leaf, withExpr, ← hx.2]

theorem output_reads (hg : g.Records parser source) (hs : Settled source s) {mark : Char}
    {rest : List Char} (hr : s.cursor.rest = mark :: '\x7b' :: rest) (hm : mark.utf8Size = 1)
    {kind : Kind} (hk : kind.isContainer = false) :
    (output g kind).Ensures s (TokenRead source s) (Broken source) := by
  have hl := leads_opener hr
  have hopen := moved_to (s := s) hl
  unfold output
  simp only [ensures_bind, ensures_here]
  refine ensures_bump hl (by simp [hm]; rfl) ?_
  refine (expression_reads hg (hs.of_moved hopen) _ _).mono ?_
  rintro e n ⟨hn, hlt⟩
  have hsn := (hs.of_moved hopen).of_reading hn
  refine ensures_eat (fun h ↦ ?_) fun _ ↦ ?_
  · have hclose := Cursor.leads_of_startsWith h
    obtain ⟨v, hv⟩ := hn.leads
    have hx := (hl.trans hv).trans hclose
    simp only [↓reduceIte, ensures_bind, ensures_pure]
    refine ensures_tokenFrom hx ⟨reading_around hs.place hopen hn (moved_to hclose) hk hx, ?_⟩
    have h₁ := hl.length_rest
    have h₂ := hclose.length_rest
    simp only at h₁ h₂ hlt ⊢
    omega
  · simp only [Bool.false_eq_true, ↓reduceIte, ensures_bind, ensures_here, ensures_failAt]
    exact hsn.broken hsn.place _ _

/-- What is neither the end of a run nor an opener, escaped or not, starts literal text. -/
theorem literal_ne_nil {interpolated : Bool} {c : Char} {rest : List Char}
    (hend : ¬(isBreak c || interpolated && c == ']') = true) (hopen : opens (c :: rest) = false)
    (hesc : ¬(c == '\\' && opens rest) = true) : literal interpolated (c :: rest) ≠ [] := by
  unfold literal
  rw [hopen, Bool.or_false, if_neg hend]
  split
  · rename_i hc
    rw [if_neg fun h ↦ hesc (by rw [hc, h]; rfl)]
    split
    · simp
    · split <;> simp
  · simp

/-- An escape and the opener behind it make literal text, and so does what is no opener. -/
theorem literal_of_front {interpolated : Bool} {cs text : List Char} {escape : Nat}
    (h : Front.ofRest interpolated cs = .literal escape text) :
    ∃ mark others, cs = mark ++ (text ++ others) ∧ byteLength mark = escape ∧
      mark.all isMark = true ∧ text ≠ [] := by
  unfold Front.ofRest at h
  split at h
  · contradiction
  · rename_i c rest
    split at h
    · contradiction
    · rename_i hend
      split at h
      · contradiction
      · contradiction
      · contradiction
      · rename_i h₁ h₂ h₃
        split at h
        · rename_i hesc
          obtain ⟨hc, hopen⟩ := Bool.and_eq_true_iff.1 hesc
          obtain ⟨others, ho⟩ := exists_eq_literal_append interpolated (rest.drop 2)
          cases h
          refine ⟨[c], others, ?_, ?_, ?_, ?_⟩
          · rw [List.append_assoc, ← ho, List.take_append_drop, List.singleton_append]
          · rw [beq_iff_eq.1 hc]
            rfl
          · rw [beq_iff_eq.1 hc]
            rfl
          · unfold opens at hopen
            split at hopen <;> simp at hopen ⊢
        · rename_i hesc
          obtain ⟨others, ho⟩ := exists_eq_literal_append interpolated (c :: rest)
          cases h
          refine ⟨[], others, ho, rfl, rfl, ?_⟩
          refine literal_ne_nil hend ?_ hesc
          unfold opens
          split
          · rename_i heq
            cases heq
            exact (h₁ _ rfl rfl).elim
          · rename_i heq
            cases heq
            exact (h₃ _ rfl rfl).elim
          · rename_i heq
            cases heq
            exact (h₂ _ rfl rfl).elim
          · rfl

/-- The end of a run is where the line ends or, inside an inline tag, before its bracket. -/
theorem atRunEnd_of_front {interpolated : Bool} {c : Cursor}
    (h : Front.ofRest interpolated c.rest = .finished) : c.atRunEnd interpolated = true := by
  unfold Front.ofRest at h
  split at h
  · rename_i hr
    simp [Cursor.atRunEnd, Cursor.atLineEnd, hr]
  · rename_i d rest hr
    split at h
    · rename_i hend
      simpa [Cursor.atRunEnd, Cursor.atLineEnd, hr] using hend
    · split at h
      · contradiction
      · contradiction
      · contradiction
      · split at h <;> contradiction

/-- What stands at the front where output opens. -/
theorem output_of_front {interpolated : Bool} {cs : List Char} {kind : Kind}
    (h : Front.ofRest interpolated cs = .output kind) :
    ∃ mark rest, cs = mark :: '\x7b' :: rest ∧ mark.utf8Size = 1 ∧ kind.isContainer = false := by
  unfold Front.ofRest at h
  split at h
  · contradiction
  · split at h
    · contradiction
    · split at h
      · cases h
        exact ⟨_, _, rfl, rfl, rfl⟩
      · cases h
        exact ⟨_, _, rfl, rfl, rfl⟩
      · contradiction
      · split at h <;> contradiction

/-- What stands at the front where an inline tag opens. -/
theorem inlineTag_of_front {interpolated : Bool} {cs : List Char}
    (h : Front.ofRest interpolated cs = .inlineTag) : ∃ rest, cs = '#' :: '[' :: rest := by
  unfold Front.ofRest at h
  split at h
  · contradiction
  · split at h
    · contradiction
    · split at h
      · contradiction
      · contradiction
      · exact ⟨_, rfl⟩
      · split at h <;> contradiction

section

variable {inlineTag : Reader (σ × List (Call E)) (Token E)} {interpolated : Bool}

theorem piece_reads (hg : g.Records parser source) (hi : ReadsInlineTags source inlineTag)
    (hs : Settled source s) :
    (piece g inlineTag interpolated).Ensures s
      (ItemRead source (fun _ t ↦ t.cursor.atRunEnd interpolated = true) s) (Broken source) := by
  unfold piece
  simp only [ensures_bind, ensures_here]
  split
  · rename_i hf
    exact ⟨.refl source s, atRunEnd_of_front hf⟩
  · rename_i kind hf
    obtain ⟨mark, rest, hr, hm, hk⟩ := output_of_front hf
    simp only [ensures_bind, ensures_pure]
    exact (output_reads hg hs hr hm hk).mono fun a t ht ↦ ht
  · rename_i hf
    obtain ⟨rest, hr⟩ := inlineTag_of_front hf
    simp only [ensures_bind, ensures_pure]
    exact (hi s rest hs hr).mono fun a t ht ↦ ht
  · rename_i escape text hf
    obtain ⟨mark, others, hr, hm, hmark, hne⟩ := literal_of_front hf
    have hl := Cursor.leads_past hr
    have htext := Cursor.leads_past (List.append_cancel_left (hl.1.symm.trans hr))
    have hopen := reading_marks hs.place hl hmark
    simp only [ensures_bind, ensures_pure]
    refine ensures_bump hl hm ?_
    simp only [ensures_here, ensures_moveTo]
    refine ⟨hopen.after (.leaf (hopen.place hs.place) (moved_to htext) rfl), ?_⟩
    have h₁ := hl.length_rest
    have h₂ := htext.length_rest
    have h₃ := List.length_pos_iff.2 hne
    simp only at h₁ h₂ ⊢
    omega

theorem pieces_reads (hg : g.Records parser source) (hi : ReadsInlineTags source inlineTag)
    (hs : Settled source s) :
    (pieces g inlineTag interpolated).Ensures s
      (fun ts t ↦ Reading source s ts t ∧ t.cursor.atRunEnd interpolated = true)
      (Broken source) := by
  unfold pieces
  simp only [ensures_bind, ensures_pure]
  exact (gather_rounds_reads hg (fun _ h ↦ piece_reads hg hi h) hs).mono fun _ _ h ↦ h

/-- A run is a container around its pieces. -/
theorem run_reads (hg : g.Records parser source) (hi : ReadsInlineTags source inlineTag)
    (hs : Settled source s) :
    (run g inlineTag interpolated).Ensures s
      (fun a t ↦ Reading source s a.children t ∧ Reading source s [a] t ∧
        a.kind = .linePlainText ∧ t.cursor.atRunEnd interpolated = true) (Broken source) := by
  unfold run
  simp only [ensures_bind, ensures_here, ensures_pure]
  refine (pieces_reads hg hi hs).mono ?_
  rintro ts t ⟨ht, hend⟩
  obtain ⟨w, hw⟩ := ht.leads
  exact ensures_tokenFrom hw
    ⟨ht, ht.wrap (hs.place.stands hw) rfl rfl, rfl, hend⟩

end

end Pug.TextRun

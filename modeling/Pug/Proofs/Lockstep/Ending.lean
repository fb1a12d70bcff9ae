import Pug.Diagnostic
import Pug.Proofs.Lockstep.Checked
import Pug.Proofs.Template
import Pug.Proofs.Text.ExtentEnding

/-!
# Templates with other line endings

What a template comes to does not depend on how its lines end: written with lone returns it comes to
the same tree or the same error at the same place, and written with `\r\n` to the same tree or error
further on. Only strings tell `\r\n` apart, where a backslash hides the first of the two characters
and leaves the second to break the string.
-/

namespace Pug

open Text Token Reader
open ExpressionParser (Call loose taken?_loose loose_eq_brokeDown)

/-- The same trees in a template with another line ending. -/
def Recast.written (e : LineEnding) (offset : Nat → Nat) : Recast Shape Shape :=
  ⟨e, offset, Embedded.handle⟩

namespace LineEnding

theorem length_le_write (e : LineEnding) (cs : List Char) : cs.length ≤ (e.write cs).length := by
  induction cs with
  | nil => exact Nat.zero_le _
  | cons c cs ih =>
    obtain ⟨x, xs, hx, -⟩ := e.exists_chars_eq_cons
    rw [write_cons, List.length_append, List.length_cons, Nat.add_comm]
    refine Nat.add_le_add ?_ ih
    split
    · rw [hx, List.length_cons]
      exact Nat.le_add_left ..
    · exact Nat.le_refl 1

end LineEnding

namespace Link

variable {source : List Char}

/-- Over the body alone, the same text stands in front with the other line ending. -/
theorem Places.rest_write {σ₁ σ₂ E₁ E₂ : Type} {L : Link σ₁ σ₂ E₁ E₂} {c d : Cursor}
    (h : L.Places c d) (h₁ : L.ends₁ = []) (h₂ : L.ends₂ = []) :
    d.rest = L.ending.write c.rest := by
  obtain ⟨before, after, -, rfl, rfl⟩ := h
  simp [h₁, h₂]

/-- Two runs over one template with different line endings. -/
def rewriting (R : Recast Shape Shape) (source : List Char) (hr : '\r' ∉ source)
    (offset_add : ∀ before w after, source = before ++ (w ++ after) →
      R.offset (byteLength before + byteLength w) =
        R.offset (byteLength before) + byteLength (R.ending.write w)) :
    Link Unit Unit Shape Shape :=
  strict R source (.inr hr) offset_add (fun _ _ ↦ True) (· = .stalled)

/-- The loose parser answers alike where the extents of expressions correspond. -/
theorem answers_loose {L : Link Unit Unit Shape Shape} (hhandle : L.handle = Embedded.handle)
    (hp : ∀ p q, L.parsers p q)
    (hextent : ∀ mode c d, L.Feeds mode → L.Places c d →
      extent (mode.write L.ending) d.rest = (extent mode c.rest).write L.ending)
    (hword : ∀ mode c d raw, L.Places c d → extent mode c.rest = .upTo raw → L.Words raw c d) :
    L.Answers loose loose := by
  refine ⟨fun _ _ _ ↦ hp _ _, ?_, ?_, ?_⟩
  · intro mode c d p q handle text hm h _ ht
    rw [taken?_loose] at ht ⊢
    rw [hextent mode c d hm h]
    cases hx : extent mode c.rest with
    | absent => rw [hx] at ht; contradiction
    | torn => rw [hx] at ht; contradiction
    | upTo raw =>
      rw [hx] at ht
      cases ht
      refine ⟨hword mode c d _ h hx, ?_⟩
      rw [hhandle, Extent.write]
      dsimp only
      rw [LineEnding.trim_write, Shape.ofText_write]
      rfl
  · intro mode c d p q hm h _ ht hne
    right
    rw [taken?_loose] at ht ⊢
    rw [ne_eq, loose_eq_brokeDown] at hne ⊢
    rw [hextent mode c d hm h]
    cases hx : extent mode c.rest with
    | absent => exact ⟨rfl, by rintro ⟨⟩⟩
    | torn => exact absurd hx hne
    | upTo raw => rw [hx] at ht; contradiction
  · intro mode c d p q hm h _ hb
    right
    rw [loose_eq_brokeDown] at hb ⊢
    rw [hextent mode c d hm h, hb]
    rfl

/-- The loose parser answers alike, whatever the line ending. -/
theorem answers_rewriting {L : Link Unit Unit Shape Shape} (hhandle : L.handle = Embedded.handle)
    (h₁ : L.ends₁ = []) (h₂ : L.ends₂ = []) (hp : ∀ p q, L.parsers p q) (hr : '\r' ∉ L.body)
    (hh : Unhidden L.ending L.body) : L.Answers loose loose := by
  refine answers_loose hhandle hp (fun mode c d hm h ↦ ?_) fun mode c d raw h hx ↦ ?_
  · rw [h.rest_write h₁ h₂]
    obtain ⟨before, after, hbody, rfl, rfl⟩ := h
    rw [hbody] at hr hh
    simp only [List.nil_append, h₁, List.append_nil, List.mem_append, not_or] at hr hh ⊢
    refine extent_write hr.2 ?_ hm
    exact hh.imp_right fun h hi ↦ h (hi.trans (List.suffix_append before after).isInfix)
  · obtain ⟨others, ho⟩ := exists_eq_append_of_extent hx
    exact h.word_of_exact h₁ ho

end Link

section Loose

variable {R : Recast Shape Shape} {source : List Char} {maxDepth : Nat}

/-- Reading a template does not stall. -/
theorem lex_ne_stalled {σ E : Type} {parser : ExpressionParser σ E} {s : σ} :
    lex parser maxDepth source s ≠ .error .stalled := by
  intro hlex
  obtain ⟨_, -, hb⟩ := broken_of_lex hlex
  rcases hb.cause with ⟨_, hf, -⟩ | ⟨hf, -⟩ <;> contradiction

theorem readTemplate_ne_stalled {σ E : Type} {parser : ExpressionParser σ E} {s : σ}
    {t : ReadState σ} : readTemplate parser maxDepth source s ≠ .error .stalled t := by
  intro h
  have hlex : lex parser maxDepth source s = .error .stalled := by
    unfold lex
    rw [h]
  exact lex_ne_stalled hlex

/-- A template with another line ending comes to the same, written with that ending. -/
theorem lex_written (hhandle : R.handle = Embedded.handle) (h0 : R.offset 0 = 0)
    (hoffset : ∀ before w after, source = before ++ (w ++ after) →
      R.offset (byteLength before + byteLength w) =
        R.offset (byteLength before) + byteLength (R.ending.write w))
    (hr : '\r' ∉ source) (hh : Unhidden R.ending source) :
    lex loose maxDepth (R.ending.write source) () = R.outcome (lex loose maxDepth source ()) := by
  let L := Link.rewriting R source hr hoffset
  have hanswers : L.Answers loose loose :=
    Link.answers_rewriting hhandle rfl rfl (fun _ _ ↦ trivial) hr hh
  have hshape (e : Embedded Shape) : (loose.shape (L.handle e)) = loose.shape e.handle :=
    congrArg loose.shape (congrFun hhandle e)
  have hg : L.Setups ⟨loose, maxDepth, source.length + 1⟩
      ⟨loose, maxDepth, (R.ending.write source).length + 1⟩ :=
    hanswers.setups (fun e h ↦ .inl ((hshape e).trans h)) (fun e h ↦ .inl ((hshape e).symm.trans h))
      rfl (Nat.succ_le_succ (R.ending.length_le_write source)) (.inl rfl)
  refine (Link.readTemplate_ends (.of_exact ⟨rfl, rfl, fun _ _ ↦ Iff.rfl⟩ rfl h0) hg trivial ?_
    ?_).lex_eq
  · exact fun hall ↦ nomatch hall .brokeDown
  · rintro f t rfl
    exact readTemplate_ne_stalled

/-- Where the lines end with lone returns, positions are the same. -/
theorem walk_write_cr {cs : List Char} (h : '\r' ∉ cs) (line column : Nat) (onLine : List Char)
    (n : Nat) : Position.walk line column (LineEnding.cr.write onLine) (LineEnding.cr.write cs) n =
      Position.walk line column onLine cs n := by
  induction cs generalizing line column onLine n with
  | nil =>
    rw [LineEnding.write_nil, Position.walk, Position.walk, LineEnding.firstLine_write]
  | cons c cs ih =>
    rw [List.mem_cons, not_or] at h
    by_cases hc : c = '\n'
    · have hends : endsLine '\r' (LineEnding.cr.write cs) = true := by
        have : (LineEnding.cr.write cs).head? ≠ some '\n' := LineEnding.head?_write_ne (by decide)
        simpa [endsLine] using this
      rw [hc, LineEnding.write_cons_feed]
      change Position.walk line column _ ('\r' :: LineEnding.cr.write cs) n = _
      rw [Position.walk, Position.walk, LineEnding.firstLine_write, if_pos hends,
        if_pos (show endsLine '\n' cs = true from rfl), ih h.2]
      rfl
    · have hends (rest : List Char) : endsLine c rest = false := by
        simp [endsLine, hc, Ne.symm h.1]
      rw [LineEnding.write_cons_of_ne hc, Position.walk, Position.walk, LineEnding.firstLine_write,
        hends, hends, ih h.2 line (column + 1)]
      rfl

/-- Lone returns end lines as line feeds do: written with them, a template comes to the same tree
with the same spans, or to the same failure, and an error has the same line and column. -/
theorem lex_write_cr (maxDepth : Nat) (h : '\r' ∉ source) :
    (∀ root, lex loose maxDepth source () = .ok root →
      lex loose maxDepth (LineEnding.cr.write source) () =
        .ok ((Recast.written .cr id).token root)) ∧
    ∀ f, lex loose maxDepth source () = .error f →
      lex loose maxDepth (LineEnding.cr.write source) () = .error f ∧
        ∀ e, f = .error e → e.position (LineEnding.cr.write source) = e.position source := by
  have hlex : lex loose maxDepth (LineEnding.cr.write source) () =
      (Recast.written .cr id).outcome (lex loose maxDepth source ()) := by
    refine lex_written (R := .written .cr id) rfl rfl (fun before w _ _ ↦ ?_) h (.inl (by decide))
    rw [show (Recast.written .cr id).ending = .cr from rfl, LineEnding.byteLength_write_cr]
    rfl
  refine ⟨fun root hr ↦ ?_, fun f hr ↦ ⟨?_, fun e _ ↦ walk_write_cr h 1 1 source e.offset⟩⟩
  · rw [hlex, hr]
    rfl
  · rw [hlex, hr]
    cases f <;> rfl

/-- A list over two lines and a block of text. -/
theorem lex_write_cr_lines :
    ∃ root, lex loose 32 "a(b=[1,\n2])\n  p.\n    x".toList () = .ok root ∧
      lex loose 32 (LineEnding.cr.write "a(b=[1,\n2])\n  p.\n    x".toList) () =
        .ok ((Recast.written .cr id).token root) := by
  obtain ⟨root, hr, -⟩ := exists_of_any (r := lex loose 32 "a(b=[1,\n2])\n  p.\n    x".toList ())
    (p := fun _ ↦ true) (by decide +kernel)
  exact ⟨root, hr, (lex_write_cr 32 (by decide)).1 root hr⟩

/-- Written with `\r\n`, a template comes to the same tree or to the same failure further on, if no
backslash stands before a line feed. -/
theorem lex_write_crlf (maxDepth : Nat) (h : '\r' ∉ source) (hb : ¬['\\', '\n'] <:+: source) :
    lex loose maxDepth (LineEnding.crlf.write source) () =
      (Recast.written .crlf fun n ↦ byteLength (LineEnding.crlf.write (firstBytes n source))).outcome
        (lex loose maxDepth source ()) := by
  have hfront {before after : List Char} (hs : source = before ++ after) :
      firstBytes (byteLength before) source = before := by rw [hs, firstBytes_append]
  refine lex_written (R := .written .crlf _) rfl ?_ (fun before w after hs ↦ ?_) h (.inr hb)
  · have hnone : firstBytes 0 source = [] := hfront (List.nil_append source).symm
    change byteLength (LineEnding.crlf.write (firstBytes 0 source)) = 0
    rw [hnone]
    rfl
  · have hw : firstBytes (byteLength before + byteLength w) source = before ++ w := by
      rw [← byteLength_append]
      exact hfront (by rw [hs, List.append_assoc])
    change byteLength (LineEnding.crlf.write (firstBytes _ source)) =
      byteLength (LineEnding.crlf.write (firstBytes _ source)) + byteLength (LineEnding.crlf.write w)
    rw [hw, hfront hs, LineEnding.write_append, byteLength_append]

theorem lex_write_crlf_lines :
    ∃ root, lex loose 32 "a(b=[1,\n2])\n  p.\n    x".toList () = .ok root ∧
      lex loose 32 (LineEnding.crlf.write "a(b=[1,\n2])\n  p.\n    x".toList) () =
        .ok ((Recast.written .crlf fun n ↦ byteLength (LineEnding.crlf.write
          (firstBytes n "a(b=[1,\n2])\n  p.\n    x".toList))).token root) := by
  obtain ⟨root, hr, -⟩ := exists_of_any (r := lex loose 32 "a(b=[1,\n2])\n  p.\n    x".toList ())
    (p := fun _ ↦ true) (by decide +kernel)
  exact ⟨root, hr, (lex_write_crlf 32 (by decide) (by decide)).trans (congrArg _ hr)⟩

/-- A string that goes on over a line feed behind a backslash breaks off at `\r\n`. -/
theorem lex_write_crlf_hidden :
    (∃ root, lex loose 32 "= \"a\\\nb\"".toList () = .ok root) ∧
      lex loose 32 (LineEnding.crlf.write "= \"a\\\nb\"".toList) () =
        .error (.error ⟨.invalidExpression .output, 1, none⟩) := by
  constructor
  · obtain ⟨root, hr, -⟩ := exists_of_any (r := lex loose 32 "= \"a\\\nb\"".toList ())
      (p := fun _ ↦ true) (by decide +kernel)
    exact ⟨root, hr⟩
  · rw [show LineEnding.crlf.write "= \"a\\\nb\"".toList = "= \"a\\\r\nb\"".toList by decide +kernel]
    cbv

end Loose

end Pug

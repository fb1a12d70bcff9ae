import Pug.Proofs.Expression.Pieces
import Pug.Proofs.Layout.Course
import Pug.Proofs.Layout.Document
import Pug.Proofs.Print.Sketch
import Pug.Proofs.Print.Yields

/-!
# Templates of one line

A template whose first line takes all of it reads as that line does: what the line and those that
follow it make of the empty outline is the tree.
-/

namespace Pug

open Text Token Reader Outline
open ExpressionParser (loose)

/-- What a template starts with that is neither indented nor blank at its front. -/
def StartsLine (source : List Char) : Prop :=
  ∃ x rest, source = x :: rest ∧ isSeparator x = false

/-- The end of a line ends a run outside inline tags. -/
theorem Cursor.atRunEnd_of_atLineEnd {c : Cursor} (h : c.atLineEnd = true) :
    c.atRunEnd false = true := by
  rw [Cursor.atRunEnd, h]
  rfl

/-- At the end of a line no spacing is left. -/
theorem Cursor.unspaced_of_atLineEnd {c : Cursor} (h : c.atLineEnd = true) :
    ∀ x ∈ c.rest.head?, isSpacing x = false := by
  intro x hx
  have hbreak : isBreak x = true := by
    obtain ⟨rest, hr⟩ := List.head?_eq_some_iff.1 hx
    rw [Cursor.atLineEnd, hr] at h
    exact h
  refine Bool.eq_false_iff.2 fun hs ↦ ?_
  rw [isBreak_of_isSpacing hs] at hbreak
  contradiction

/-- No mark stands at the end of a line. -/
theorem Cursor.startsWith_of_atLineEnd {c : Cursor} (h : c.atLineEnd = true) {word : String}
    {x : Char} {xs : List Char} (hword : word.toList = x :: xs) (hx : isBreak x = false) :
    c.startsWith word = false := by
  rw [Cursor.startsWith, hword]
  cases hrest : c.rest with
  | nil => rfl
  | cons y ys =>
    rw [Cursor.atLineEnd, hrest] at h
    have hne : x ≠ y := by
      rintro rfl
      rw [show isBreak x = true from h] at hx
      contradiction
    simp [List.isPrefixOf, hne]

/-- Behind a gap nothing is skipped but the gap. -/
theorem Cursor.skipSpacing_gap {c d : Cursor} (a : Extent.Gap) (h : c.Leads a.chars d)
    (hd : ∀ x ∈ d.rest.head?, isSpacing x = false) : c.skipSpacing = d :=
  Cursor.skipWhile_eq h a.spacing hd

/-- From the end of the template there is nowhere to go. -/
theorem Cursor.rest_past_nil {c : Cursor} (h : c.rest = []) (word : List Char) :
    (c.past word).rest = [] := by
  rw [Cursor.past, Cursor.rest_skip, h, List.drop_nil]

/-- Behind the last line break, or where there is none, a template ends. -/
theorem Cursor.ends_of_closing {c : Cursor} (h : c.rest = [] ∨ ∃ e : LineEnding, c.rest = e.chars) :
    c.atLineEnd = true ∧ c.nextLine.rest = [] := by
  rcases h with hnil | ⟨e, he⟩
  · exact ⟨Cursor.atLineEnd_of_nil hnil, Cursor.rest_past_nil hnil _⟩
  · have hlast : c.rest = e.chars ++ [] := by rw [he, List.append_nil]
    constructor
    · exact Cursor.atLineEnd_of_breaks fun x hx ↦ LineEnding.isBreak_of_mem_chars (he ▸ hx)
    · rw [Cursor.nextLine, Cursor.lineBreak_eq hlast fun _ ↦ by simp]
      exact Cursor.rest_past_append _ _ _ hlast

namespace Page

/-- A chain that is read up to the end of a line takes the line, and makes a page of what it comes to. -/
theorem content_yields {σ E : Type} {g : Setup σ E} {o : Outline E} {c : Cursor} {level : Nat}
    {M : Outline E × LineId × LineTail → Cursor → Prop} {broken : Failure → Prop}
    (h : (chain g level o).Yields c M broken)
    (hend : ∀ r d, M r d → d.skipSpacing.atLineEnd = true) :
    (content g o level).Yields c (fun page y ↦ ∃ owner tail d, M (page.outline, owner, tail) d ∧
      page.verbatim = below owner level tail ∧ y = d.skipSpacing.nextLine) broken := by
  refine .bind h ?_
  rintro ⟨o', id, tail⟩ d hd
  refine .endRun (Cursor.atRunEnd_of_atLineEnd (hend _ d hd)) (.here (.moveTo ?_))
  cases tail <;> exact .pure ⟨_, _, d, hd, rfl, rfl⟩

/-- A template may start at the outermost level, if there is one. -/
theorem checkLevel_empty {E : Type} {maxDepth : Nat} (hmax : 0 < maxDepth) :
    (Outline.empty maxDepth : Outline E).checkLevel 0 = none := by
  unfold checkLevel
  exact if_neg (Nat.not_le.2 hmax)

/-- A line at a level that may be opened, and those that follow it. -/
theorem chain_yields {σ E : Type} {g : Setup σ E} {o : Outline E} {level : Nat} {c : Cursor}
    {M : Token E × LineTail → Cursor → Prop} {post : Outline E × LineId × LineTail → Cursor → Prop}
    {broken : Failure → Prop} (hhas : o.has (o.parentAt level) = true)
    (hcheck : o.checkLevel level = none) (hline : (Line.markup g level).Yields c M broken)
    (hk : ∀ line tail e o' id, M (line, tail) e → o.openLine level line = .ok (o', id) →
      (if tail = .follow then followers g level (g.maxDepth - (level + 1)) o' id
        else pure (o', id, tail) :
        Reader σ (Outline E × LineId × LineTail)).Yields e post broken) :
    (chain g level o).Yields c post broken := by
  refine .here (.bind hline ?_)
  rintro ⟨line, tail⟩ e he
  obtain ⟨o', id, ho⟩ := Written.exists_openLine hcheck line
  refine .bind (M := fun _ y ↦ y = e) ?_ ?_
  · rw [expectLine, if_pos hhas]
    exact .pure rfl
  · rintro ⟨⟩ e rfl
    rw [ho]
    exact hk line tail e o' id he ho

end Page

/-- A line holds what its payload says. -/
theorem Line.markup_yields {σ E : Type} {g : Setup σ E} {c d : Cursor} {level : Nat} {w : List Char}
    {post : Token E × LineTail → Prop} {broken : Failure → Prop} (h : c.Leads w d)
    (hp : (payload g level).Yields c (fun r y ↦ post r ∧ y = d) broken) :
    (markup g level).Yields c (fun r y ↦
      (∃ t, post (t, r.2) ∧ r.1.children = [t] ∧ r.1.sketch = .row .line [t.sketch]) ∧ y = d)
      broken := by
  refine .here (.bind hp ?_)
  rintro ⟨t, tail⟩ _ ⟨ht, rfl⟩
  refine .lineFrom h (.pure ⟨⟨t, ht, rfl, ?_⟩, rfl⟩)
  rw [sketch_withChildren, sketch_container rfl]
  rfl

/-- A template leads from its start to its end. -/
theorem Cursor.exists_leads_end (source : List Char) :
    ∃ d, (Cursor.start source).Leads source d ∧ d.rest = [] :=
  have h : (Cursor.start source).rest = source ++ [] := (List.append_nil source).symm
  ⟨_, leads_past h, rest_past_append _ _ _ h⟩

section Lex

variable {maxDepth : Nat} {source : List Char} {B : Failure → Prop}

/-- The first line of a template, if it is not indented and there are levels. -/
theorem line_eq_content {σ E : Type} {g : Setup σ E} {s : ReadState σ} (hs : StartsLine source)
    (hcursor : s.cursor = .start source) (hunit : s.unit = none) (hmax : 0 < maxDepth) :
    Page.line g (.empty maxDepth) s = Page.content g (.empty maxDepth) 0 s := by
  obtain ⟨x, rest, rfl, hx⟩ := hs
  obtain ⟨c, unit, p⟩ := s
  obtain rfl : c = .start (x :: rest) := hcursor
  obtain rfl : unit = none := hunit
  rw [isSeparator, Bool.or_eq_false_iff] at hx
  have hrun : (x :: rest).takeWhile isSpacing = [] := by
    rw [List.takeWhile_cons, if_neg (by rw [hx.1]; decide)]
  have hskip : (Cursor.start (x :: rest)).past ((x :: rest).takeWhile isSpacing) =
      .start (x :: rest) := Cursor.skipWhile_eq_self rfl hx.1
  have hin : (Cursor.start (x :: rest)).skipSpacing.atLineEnd = false := by
    change ((Cursor.start (x :: rest)).past ((x :: rest).takeWhile isSpacing)).atLineEnd = false
    rw [hskip]
    exact hx.2
  have hlevel : Indent.level none ((x :: rest).takeWhile isSpacing) = (.ok 0, none) := by
    rw [hrun]
    rfl
  rw [Page.empty, Page.line_eq_markupLine hin]
  refine (Page.markupLine_eq_content hlevel (Page.checkLevel_empty hmax)).trans ?_
  change Page.content g _ 0
    ⟨(Cursor.start (x :: rest)).past ((x :: rest).takeWhile isSpacing), _, _⟩ = _
  rw [hskip]

/-- What the first line and those that follow it come to is what the template comes to, if they take
all of it. -/
theorem lex_of_chain {P : Outline Shape → Prop} (hs : StartsLine source) (hmax : 0 < maxDepth)
    (h : (Page.chain ⟨loose, maxDepth, source.length + 1⟩ 0 (.empty maxDepth)).Yields
      (.start source) (fun r d ↦ d.rest = [] ∧ P r.1) B) :
    (∃ o, lex loose maxDepth source () = .ok o.finish ∧ P o) ∨
      ∃ f, lex loose maxDepth source () = .error f ∧ B f := by
  have hcontent := Page.content_yields h (fun r d hd ↦ Cursor.atLineEnd_of_nil
    (Cursor.rest_past_nil hd.1 _)) ⟨.start source, none, ()⟩ rfl
  have hline := line_eq_content (g := ⟨loose, maxDepth, source.length + 1⟩)
    (s := ⟨.start source, none, ()⟩) hs rfl rfl hmax
  obtain ⟨x, rest, rfl, -⟩ := hs
  have hlines : Page.lines ⟨loose, maxDepth, (x :: rest).length + 1⟩ ((x :: rest).length + 1)
      (.empty maxDepth) ⟨.start (x :: rest), none, ()⟩ = (Page.line _ _ >>= Page.lines _ _) _ :=
    Page.lines_before_end (List.cons_ne_nil x rest)
  unfold Ensures at hcontent
  rw [← hline] at hcontent
  split at hcontent
  · rename_i page t hpage
    obtain ⟨-, owner, tail, d, ⟨hd, hp⟩, -, hcursor⟩ := hcontent
    have hend : t.cursor.rest = [] :=
      hcursor ▸ Cursor.rest_past_nil (Cursor.rest_past_nil hd _) _
    rw [bind_of_ok hpage, List.length_cons, Page.lines_at_end hend] at hlines
    have hread : readTemplate loose maxDepth (x :: rest) () = .ok page.outline.finish t :=
      bind_of_ok hlines
    exact .inl ⟨page.outline, by rw [lex, hread], hp⟩
  · rename_i f t hpage
    rw [bind_of_error hpage] at hlines
    have hread : readTemplate loose maxDepth (x :: rest) () = .error f t := bind_of_error hlines
    exact .inr ⟨f, by rw [lex, hread], hcontent⟩

/-- There are rounds enough to read a template from its start. -/
theorem covers_start (maxDepth : Nat) (source : List Char) :
    Setup.Covers ⟨loose, maxDepth, source.length + 1⟩ (.start source) :=
  ⟨rfl, Nat.lt_succ_self _⟩

/-- The sketch of a template with these lines. -/
theorem sketch_finish {E : Type} (o : Outline E) :
    o.finish.sketch = .row .root (o.finish.children.map sketch) := by
  rw [sketch_eq]
  rfl

/-- A template of one line that no other follows. -/
theorem lex_of_markup {P : Token Shape → Prop} (hs : StartsLine source) (hmax : 0 < maxDepth)
    (h : (Line.markup ⟨loose, maxDepth, source.length + 1⟩ 0).Yields (.start source)
      (fun r d ↦ d.rest = [] ∧ r.2 ≠ .follow ∧ P r.1) B) :
    (∃ root line, lex loose maxDepth source () = .ok root ∧ root.sketch = .row .root [line.sketch] ∧
        P line) ∨
      ∃ f, lex loose maxDepth source () = .error f ∧ B f := by
  have hchain : (Page.chain ⟨loose, maxDepth, source.length + 1⟩ 0 (.empty maxDepth)).Yields
      (.start source) (fun r d ↦ d.rest = [] ∧ ∃ line, r.1.finish.children = [line] ∧ P line)
      B := by
    refine Page.chain_yields rfl (Page.checkLevel_empty hmax) h ?_
    rintro line tail e o id ⟨hd, htail, hline⟩ ho
    have htree := Written.finish_of_chain ho []
    rw [nest, extend_nil] at htree
    rw [if_neg htail]
    exact .pure ⟨hd, line, htree, hline⟩
  obtain ⟨o, hlex, line, hroot, hline⟩ | hf := lex_of_chain
    (P := fun o ↦ ∃ line, o.finish.children = [line] ∧ P line) hs hmax hchain
  · exact .inl ⟨o.finish, line, hlex, by rw [sketch_finish, hroot, List.map_singleton], hline⟩
  · exact .inr hf

end Lex

end Pug

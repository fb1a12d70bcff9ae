import Pug.Proofs.Source.Position

/-!
# Footholds

A *foothold* is a place that is not inside a line break, between its carriage return and its line
feed. On the line of a foothold nothing but characters of the line stands before it, so its column
points into the line as it is shown, or right behind it.

A move over a text arrives at a foothold unless the text ends in a carriage return: a move on a line
does, and so does one over the end of a line. Where a line break ends before a place, a line starts
there.
-/

namespace Pug

open Text

/-- A place of a template that is not inside a line break. -/
def Foothold (source : List Char) (c : Cursor) : Prop :=
  ∃ before, (Cursor.start source).Leads before c ∧
    (before.getLast? = some '\r' → c.rest.head? ≠ some '\n')

namespace Foothold

variable {source w rest : List Char} {c d : Cursor}

theorem start (source : List Char) : Foothold source (.start source) :=
  ⟨[], .refl _, nofun⟩

theorem place (h : Foothold source c) : Place source c :=
  ⟨h.choose, h.choose_spec.1⟩

/-- A move arrives at a foothold if the text that it passes does not end inside a line break. -/
theorem leads (hc : Foothold source c) (h : c.Leads w d)
    (hw : w.getLast? = some '\r' → d.rest.head? ≠ some '\n') : Foothold source d := by
  obtain ⟨before, hb, hbreak⟩ := hc
  refine ⟨before ++ w, hb.trans h, fun hlast ↦ ?_⟩
  cases hne : w.getLast? with
  | none =>
    obtain rfl := List.getLast?_eq_none_iff.1 hne
    rw [List.append_nil] at hlast
    exact h.eq_of_nil ▸ hbreak hlast
  | some x =>
    rw [List.getLast?_append, hne] at hlast
    exact hw (hne.trans hlast)

/-- A text that breaks no line is passed to a foothold. -/
theorem leads_unbroken (hc : Foothold source c) (h : c.Leads w d)
    (hw : ∀ x ∈ w, isBreak x = false) : Foothold source d := by
  refine hc.leads h fun hlast ↦ ?_
  exact absurd (hw _ (List.mem_of_getLast? hlast)) (by decide)

theorem past (hc : Foothold source c) (hr : c.rest = w ++ rest)
    (hw : ∀ x ∈ w, isBreak x = false) : Foothold source (c.past w) :=
  hc.leads_unbroken (Cursor.leads_past hr) hw

theorem past_char (hc : Foothold source c) {x : Char} (hr : c.rest = x :: rest)
    (hx : isBreak x = false) : Foothold source (c.past [x]) :=
  hc.past (w := [x]) hr (by simpa using hx)

/-- Passing what the line alone tells to stand in front. -/
theorem past_onLine (hc : Foothold source c) {q : List Char → List Char} (hq : OnLine q)
    (hfront : ∀ cs, ∃ others, cs = q cs ++ others) : Foothold source (c.past (q c.rest)) :=
  hc.past (hfront c.rest).choose_spec (hq.unbroken hfront c.rest)

/-- A row of characters that line breaks are no part of. -/
theorem skipWhile (hc : Foothold source c) {p : Char → Bool} (hn : p '\n' = false)
    (hr : p '\r' = false) : Foothold source (c.skipWhile p) := by
  refine hc.leads_unbroken (c.leads_skipWhile p) fun x hx ↦ ?_
  have hp : p x = true := List.mem_takeWhile_imp hx
  rw [isBreak, Bool.or_eq_false_iff, beq_eq_false_iff_ne, beq_eq_false_iff_ne]
  constructor
  · rintro rfl
    exact absurd hp (by rw [hn]; decide)
  · rintro rfl
    exact absurd hp (by rw [hr]; decide)

theorem skipSpacing (hc : Foothold source c) : Foothold source c.skipSpacing :=
  hc.skipWhile rfl rfl

/-- A row of separators takes line breaks as a whole. -/
theorem skipSeparators (hc : Foothold source c) : Foothold source c.skipSeparators := by
  refine hc.leads c.leads_skipSeparators fun _ hhead ↦ ?_
  have hrest : c.skipSeparators.rest = c.rest.dropWhile isSeparator := c.rest_skipWhile _
  rw [hrest] at hhead
  exact absurd (head_dropWhile isSeparator c.rest '\n' hhead) (by decide)

theorem lineEnd (hc : Foothold source c) : Foothold source c.lineEnd :=
  hc.leads_unbroken c.leads_lineEnd (unbroken_firstLine c.rest)

theorem past_startsWith {word : String} (hc : Foothold source c) (h : c.startsWith word = true)
    (hw : word.toList.any isBreak = false) : Foothold source (c.past word.toList) :=
  hc.leads_unbroken (Cursor.leads_of_startsWith h) (by simpa using hw)

theorem nextLine (hc : Foothold source c) : Foothold source c.nextLine := by
  refine hc.leads c.leads_nextLine fun hlast hhead ↦ ?_
  obtain ⟨more, hmore⟩ := List.head?_eq_some_iff.1 hhead
  have hrest := c.leads_nextLine.1
  rw [hmore] at hrest
  generalize hl : c.lineBreak = w at hlast hrest
  unfold Cursor.lineBreak at hl
  split at hl <;> subst hl
  · exact absurd hlast (by decide)
  · rename_i hcr hr
    exact hcr more (List.cons.inj (hr.symm.trans hrest)).2
  · exact absurd hlast (by decide)
  · exact absurd hlast (by decide)

/-- The column of a foothold is one of the line that is shown, or the one behind it. -/
theorem column_le (hc : Foothold source c) :
    1 ≤ (Position.ofOffset source c.offset).column ∧
      (Position.ofOffset source c.offset).column ≤
        (Position.ofOffset source c.offset).text.length + 1 := by
  obtain ⟨before, hb, hbreak⟩ := hc
  have hoffset : c.offset = byteLength before := by simpa [Cursor.start] using hb.2
  have hsource : source = before ++ c.rest := hb.1
  obtain ⟨start, word, rfl, -, hcolumn, htext, hword⟩ := (Position.located hsource).onLine
  rw [hoffset, hcolumn, htext]
  obtain hword | ⟨hlast, hhead⟩ := hword
  · rw [firstLine_append_of_unbroken hword, List.length_append]
    omega
  · refine absurd hhead (hbreak ?_)
    rw [List.getLast?_append, hlast]
    rfl

end Foothold

/-- A place at which a line of the template starts, or the end of the template. -/
structure LineStart (source : List Char) (c : Cursor) : Prop where
  foothold : Foothold source c
  offset : c.rest ≠ [] → c.offset ∈ lineStarts source

namespace LineStart

variable {source : List Char} {c : Cursor}

theorem start (source : List Char) : LineStart source (.start source) :=
  ⟨.start source, fun _ ↦ List.mem_cons_self⟩

/-- A line break that is passed ends where the walk over the template takes the line to end. -/
theorem exists_endsLine (h : c.lineBreak ≠ []) :
    ∃ w x, c.lineBreak = w ++ [x] ∧ endsLine x c.nextLine.rest = true := by
  have hrest := c.leads_nextLine.1
  generalize hl : c.lineBreak = w at h hrest ⊢
  unfold Cursor.lineBreak at hl
  split at hl <;> subst hl
  · exact ⟨['\r'], '\n', rfl, rfl⟩
  · rename_i hcr hr
    refine ⟨[], '\r', rfl, ?_⟩
    have hhead : c.nextLine.rest.head? ≠ some '\n' := by
      intro hhead
      obtain ⟨more, hmore⟩ := List.head?_eq_some_iff.1 hhead
      rw [hmore] at hrest
      exact hcr more (List.cons.inj (hr.symm.trans hrest)).2
    simpa [endsLine] using hhead
  · exact ⟨[], '\n', rfl, rfl⟩
  · exact absurd rfl h

/-- Behind the end of a line the next one starts. -/
theorem nextLine (hc : Foothold source c) (h : c.atLineEnd = true) :
    LineStart source c.nextLine := by
  refine ⟨hc.nextLine, fun hr ↦ List.mem_cons_of_mem _ ?_⟩
  have hne : c.rest ≠ [] := by
    intro hnil
    have hl := c.leads_nextLine.1
    rw [hnil] at hl
    exact hr (List.append_eq_nil_iff.1 hl.symm).2
  obtain ⟨w, x, hbreak, hends⟩ := exists_endsLine (Cursor.lineBreak_ne_nil h hne)
  obtain ⟨before, hsource, hoffset⟩ := hc.place.exists_split
  have hl := c.leads_nextLine
  rw [hbreak] at hl
  have hmem := mem_breakEnds hends 0 (before ++ w)
  have hsplit : source = before ++ w ++ x :: c.nextLine.rest := by
    rw [hsource, hl.1]
    simp only [List.append_assoc, List.singleton_append]
  rwa [← hsplit, Nat.zero_add, List.append_assoc, byteLength_append, ← hoffset, ← hl.2] at hmem

end LineStart

end Pug

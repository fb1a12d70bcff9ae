import Mathlib
import Pug.Source.Cursor

/-!
# Paths between cursors

A cursor *leads* to another over a text if the text stands at the front of the first and the
second is behind it. Every move of a reader is such a path, and paths compose; so the text between
two places, the place at an offset and the places of a whole template are read off the paths.
-/

namespace Pug

open Text

namespace Text

/-- The first bytes of a text are a beginning of it. -/
theorem firstBytes_prefix (n : Nat) (cs : List Char) : ∃ others, cs = firstBytes n cs ++ others := by
  induction cs generalizing n with
  | nil => exact ⟨[], rfl⟩
  | cons c cs ih =>
    unfold firstBytes
    split
    · obtain ⟨others, h⟩ := ih (n - c.utf8Size)
      exact ⟨others, by simp [← h]⟩
    · exact ⟨c :: cs, rfl⟩

theorem byteLength_eq_zero {cs : List Char} : byteLength cs = 0 ↔ cs = [] := by
  cases cs with
  | nil => simp
  | cons c cs =>
    have hc := c.utf8Size_pos
    simp only [byteLength_cons]
    constructor
    · omega
    · intro h
      cases h

/-- Trimming the end of a text leaves a beginning of it, and only blanks are cut. -/
theorem exists_eq_trimEnd_append (cs : List Char) :
    ∃ blanks, cs = trimEnd cs ++ blanks ∧ ∀ c ∈ blanks, isBlank c = true := by
  refine ⟨(cs.reverse.takeWhile isBlank).reverse, ?_, ?_⟩
  · rw [trimEnd, ← List.reverse_append, List.takeWhile_append_dropWhile, List.reverse_reverse]
  · intro c hc
    exact List.mem_takeWhile_imp (List.mem_reverse.1 hc)

/-- Trimming a text cuts blanks at both ends. -/
theorem exists_eq_trim_append (cs : List Char) :
    ∃ blanks, cs = cs.takeWhile isBlank ++ (trim cs ++ blanks) ∧
      ∀ c ∈ blanks, isBlank c = true := by
  obtain ⟨blanks, h, hb⟩ := exists_eq_trimEnd_append (trimStart cs)
  refine ⟨blanks, ?_, hb⟩
  rw [trim, ← h, trimStart, List.takeWhile_append_dropWhile]

theorem head_dropWhile (p : Char → Bool) (cs : List Char) :
    ∀ c ∈ (cs.dropWhile p).head?, p c = false := by
  intro c hc
  have h := List.head?_dropWhile_not p cs
  rw [Option.mem_def.1 hc] at h
  exact h

theorem dropWhile_eq_self {p : Char → Bool} {cs : List Char}
    (h : ∀ c ∈ cs.head?, p c = false) : cs.dropWhile p = cs := by
  cases cs with
  | nil => rfl
  | cons c cs => rw [List.dropWhile_cons_of_neg (by simp [h c rfl])]

/-- Nothing is left to be trimmed. -/
theorem trim_trim (cs : List Char) : trim (trim cs) = trim cs := by
  have hstart : trimStart (trim cs) = trim cs := by
    obtain ⟨blanks, h, -⟩ := exists_eq_trimEnd_append (trimStart cs)
    have hhead := head_dropWhile isBlank cs
    rw [← trimStart, h, ← trim] at hhead
    refine dropWhile_eq_self fun c hc ↦ hhead c ?_
    rw [List.head?_append, hc]
    rfl
  rw [trim, hstart, trim, trimEnd, trimEnd, List.reverse_reverse,
    dropWhile_eq_self (head_dropWhile isBlank _)]

end Text

namespace Cursor

/-- The text `word` stands at the front of `c`, and `d` is the place behind it. -/
def Leads (c : Cursor) (word : List Char) (d : Cursor) : Prop :=
  c.rest = word ++ d.rest ∧ d.offset = c.offset + byteLength word

namespace Leads

variable {c d e : Cursor} {v w : List Char}

theorem refl (c : Cursor) : c.Leads [] c := ⟨rfl, rfl⟩

theorem trans (h : c.Leads v d) (k : d.Leads w e) : c.Leads (v ++ w) e :=
  ⟨by rw [h.1, k.1, List.append_assoc], by rw [k.2, h.2, byteLength_append, Nat.add_assoc]⟩

theorem offset_le (h : c.Leads w d) : c.offset ≤ d.offset := by
  rw [h.2]
  exact Nat.le_add_right _ _

theorem length_rest (h : c.Leads w d) : c.rest.length = w.length + d.rest.length := by
  rw [h.1, List.length_append]

/-- The place that a text leads to is the place behind the text. -/
theorem past_eq (h : c.Leads w d) : c.past w = d := by
  cases d
  simp only [Leads] at h
  simp [past, skip, h.1, h.2]

/-- An empty text leads nowhere else. -/
theorem eq_of_nil (h : c.Leads [] d) : c = d := by
  rw [← h.past_eq]
  exact (skip_zero c).symm

/-- The text between two places is the text that leads from one to the other. -/
theorem upTo_eq (h : c.Leads w d) : c.upTo d = w := by
  rw [upTo, h.1, h.2, Nat.add_sub_cancel_left, firstBytes_append]

/-- The place at the offset of a place further on is that place. -/
theorem skipTo_eq (h : c.Leads w d) : c.skipTo d.offset = d := by
  rw [skipTo, h.1, h.2, Nat.add_sub_cancel_left, firstBytes_append, h.past_eq]

/-- A path over two texts passes the place between them. -/
theorem split (h : c.Leads (v ++ w) e) : c.Leads v (c.past v) ∧ (c.past v).Leads w e := by
  have hr : c.rest = v ++ (w ++ e.rest) := by rw [h.1, List.append_assoc]
  refine ⟨⟨by simp [past, hr], by simp [past, hr]⟩, by simp [past, hr], ?_⟩
  rw [h.2]
  simp [past, hr, Nat.add_assoc]

/-- A place on the way leads to the end over what is left. -/
theorem cancel (h : c.Leads v d) (k : c.Leads w e) {u : List Char} (hd : d.rest = u ++ e.rest) :
    d.Leads u e := by
  have hw : w = v ++ u := by
    have hrest := k.1.symm.trans h.1
    rw [hd, ← List.append_assoc] at hrest
    exact List.append_cancel_right hrest
  obtain ⟨-, hsplit⟩ := (hw ▸ k).split
  rwa [h.past_eq] at hsplit

/-- A path starts with the first character of its text. -/
theorem uncons {x : Char} (h : c.Leads (x :: w) e) :
    c.Leads [x] (c.past [x]) ∧ (c.past [x]).Leads w e :=
  split (v := [x]) h

end Leads

/-- A text that stands at the front leads behind itself. -/
theorem leads_past {c : Cursor} {word others : List Char} (h : c.rest = word ++ others) :
    c.Leads word (c.past word) :=
  ⟨by simp [past, h], by simp [past, h]⟩

theorem leads_skipWhile (c : Cursor) (p : Char → Bool) :
    c.Leads (c.rest.takeWhile p) (c.skipWhile p) :=
  leads_past (List.takeWhile_append_dropWhile (p := p)).symm

/-- What is left behind a row of characters does not start with one of them. -/
theorem rest_skipWhile (c : Cursor) (p : Char → Bool) :
    (c.skipWhile p).rest = c.rest.dropWhile p :=
  rest_past_append c _ _ (List.takeWhile_append_dropWhile (p := p)).symm

/-- Skipping a row of characters leads behind it. -/
theorem skipWhile_eq {c d : Cursor} {w : List Char} {p : Char → Bool} (h : c.Leads w d)
    (hw : ∀ x ∈ w, p x = true) (hd : ∀ x ∈ d.rest.head?, p x = false) : c.skipWhile p = d := by
  have hrest : d.rest.takeWhile p = [] := by
    cases hr : d.rest with
    | nil => rfl
    | cons x rest => rw [List.takeWhile_cons_of_neg (by rw [hd x (by rw [hr]; rfl)]; decide)]
  rw [skipWhile, h.1, List.takeWhile_append_of_pos hw, hrest, List.append_nil, h.past_eq]

/-- Nothing is skipped before a character that is not in the row. -/
theorem skipWhile_eq_self {c : Cursor} {x : Char} {rest : List Char} {p : Char → Bool}
    (h : c.rest = x :: rest) (hx : p x = false) : c.skipWhile p = c := by
  refine skipWhile_eq (.refl c) (List.forall_mem_nil _) ?_
  rw [h]
  rintro _ ⟨⟩
  exact hx

theorem leads_skipSpacing (c : Cursor) : c.Leads (c.rest.takeWhile isSpacing) c.skipSpacing :=
  c.leads_skipWhile isSpacing

theorem leads_skipSeparators (c : Cursor) :
    c.Leads (c.rest.takeWhile isSeparator) c.skipSeparators :=
  c.leads_skipWhile isSeparator

theorem leads_lineEnd (c : Cursor) : c.Leads c.line c.lineEnd :=
  leads_past (List.takeWhile_append_dropWhile (p := fun c ↦ !isBreak c)).symm

theorem atLineEnd_lineEnd (c : Cursor) : c.lineEnd.atLineEnd = true := by
  have hr : c.lineEnd.rest = c.rest.dropWhile (fun x ↦ !isBreak x) :=
    c.rest_skipWhile (fun x ↦ !isBreak x)
  have hhead := List.head?_dropWhile_not (fun x ↦ !isBreak x) c.rest
  rw [atLineEnd, hr]
  split at hhead
  · rename_i x hx
    rw [hx]
    simpa using hhead
  · rename_i hx
    rw [hx]
    rfl

theorem leads_nextLine (c : Cursor) : c.Leads c.lineBreak c.nextLine := by
  have h : ∃ others, c.rest = c.lineBreak ++ others := by
    unfold lineBreak
    split
    · exact ⟨_, by assumption⟩
    · exact ⟨_, by assumption⟩
    · exact ⟨_, by assumption⟩
    · exact ⟨_, rfl⟩
  obtain ⟨others, h⟩ := h
  exact leads_past h

/-- The end of the template ends a line. -/
theorem atLineEnd_of_nil {c : Cursor} (h : c.rest = []) : c.atLineEnd = true := by
  rw [atLineEnd, h]
  rfl

/-- At the end of a line there is a line break, unless nothing is left. -/
theorem lineBreak_ne_nil {c : Cursor} (h : c.atLineEnd = true) (hr : c.rest ≠ []) :
    c.lineBreak ≠ [] := by
  obtain ⟨x, rest, hx⟩ := List.exists_cons_of_ne_nil hr
  have hb : x = '\n' ∨ x = '\r' := by simpa [atLineEnd, hx, isBreak] using h
  rcases hb with rfl | rfl
  · simp [lineBreak, hx]
  · cases rest with
    | nil => simp [lineBreak, hx]
    | cons y rest => by_cases hy : y = '\n' <;> simp [lineBreak, hx, hy]

/-- At the end of a line there is no spacing. -/
theorem takeWhile_isSpacing_eq_nil {c : Cursor} (h : c.atLineEnd = true) :
    c.rest.takeWhile isSpacing = [] := by
  cases hr : c.rest with
  | nil => rfl
  | cons x rest =>
    have hb : x = '\n' ∨ x = '\r' := by simpa [atLineEnd, hr, isBreak] using h
    rcases hb with rfl | rfl <;> rfl

/-- Spacing up to another character is passed. -/
theorem skipSpacing_append {offset : Nat} {run rest : List Char} {x : Char}
    (hrun : ∀ y ∈ run, isSpacing y = true) (hx : isSpacing x = false) :
    (⟨offset, run ++ x :: rest⟩ : Cursor).skipSpacing = ⟨offset + byteLength run, x :: rest⟩ := by
  have htake : (run ++ x :: rest).takeWhile isSpacing = run := by
    rw [List.takeWhile_append_of_pos hrun, List.takeWhile_cons_of_neg (Bool.not_eq_true _ ▸ hx),
      List.append_nil]
  rw [skipSpacing, skipWhile, htake]
  exact Leads.past_eq ⟨rfl, rfl⟩

theorem skipSpacing_of_atLineEnd {c : Cursor} (h : c.atLineEnd = true) : c.skipSpacing = c := by
  rw [skipSpacing, skipWhile, takeWhile_isSpacing_eq_nil h]
  exact skip_zero c

theorem leads_skip (c : Cursor) (n : Nat) : c.Leads (c.rest.take n) (c.skip n) :=
  ⟨by simp, rfl⟩

theorem leads_of_startsWith {c : Cursor} {word : String} (h : c.startsWith word = true) :
    c.Leads word.toList (c.past word.toList) := by
  obtain ⟨others, ho⟩ := List.isPrefixOf_iff_prefix.1 h
  exact leads_past ho.symm

theorem leads_firstBytes (c : Cursor) (n : Nat) :
    c.Leads (firstBytes n c.rest) (c.past (firstBytes n c.rest)) := by
  obtain ⟨others, h⟩ := firstBytes_prefix n c.rest
  exact leads_past h

/-- A break character is a blank, and so is every character of a line break. -/
theorem isBreak_of_mem_lineBreak {c : Cursor} {x : Char} (h : x ∈ c.lineBreak) :
    isBreak x = true := by
  unfold lineBreak at h
  split at h <;> simp only [List.mem_cons, List.not_mem_nil, or_false] at h
  · rcases h with rfl | rfl <;> rfl
  · cases h; rfl
  · cases h; rfl

end Cursor

/-- A place of a template: a text of the template leads there from its start. -/
def Place (source : List Char) (c : Cursor) : Prop :=
  ∃ before, (Cursor.start source).Leads before c

namespace Place

variable {source w : List Char} {c d : Cursor}

theorem start (source : List Char) : Place source (.start source) :=
  ⟨[], .refl _⟩

theorem leads (h : Place source c) (k : c.Leads w d) : Place source d := by
  obtain ⟨before, hb⟩ := h
  exact ⟨before ++ w, hb.trans k⟩

/-- A place splits the template at its offset. -/
theorem exists_split (h : Place source c) :
    ∃ before, source = before ++ c.rest ∧ c.offset = byteLength before := by
  obtain ⟨before, hb⟩ := h
  exact ⟨before, hb.1, by simpa [Cursor.start] using hb.2⟩

theorem offset_add (h : Place source c) : c.offset + byteLength c.rest = byteLength source := by
  obtain ⟨before, hs, ho⟩ := h.exists_split
  rw [ho, hs, byteLength_append]

theorem offset_le (h : Place source c) : c.offset ≤ byteLength source := by
  have := h.offset_add
  omega

theorem length_rest_le (h : Place source c) : c.rest.length ≤ source.length := by
  obtain ⟨before, hs, -⟩ := h.exists_split
  rw [hs, List.length_append]
  omega

/-- From a place the template leads to every place at no smaller offset. -/
theorem leads_to (h : Place source c) (k : Place source d) (hle : c.offset ≤ d.offset) :
    ∃ v, c.Leads v d := by
  obtain ⟨before, hs, ho⟩ := h.exists_split
  obtain ⟨before', hs', ho'⟩ := k.exists_split
  rcases List.append_eq_append_iff.1 (hs.symm.trans hs') with ⟨v, rfl, hv⟩ | ⟨v, rfl, hv⟩
  · refine ⟨v, hv, ?_⟩
    rw [ho', ho, byteLength_append]
  · have hnil : v = [] := by
      rw [ho, ho', byteLength_append] at hle
      exact byteLength_eq_zero.1 (by omega)
    subst hnil
    exact ⟨[], by simpa using hv.symm, by simp [ho, ho']⟩

end Place

end Pug

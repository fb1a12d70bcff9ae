import Pug.Proofs.Reading.Account
import Pug.Proofs.Reading.Consulted
import Pug.Proofs.Token.Leaves

/-!
# Readings

A reading is a run of a reader from one state to another together with the tokens it has made. The
tokens stand in the template, their leaf spans are in order, every byte passed is accounted for,
and the calls of the expression parser are the expressions of the tokens. Readings compose, and
there is one rule for each way in which a token is made; what readers read is derived from these
rules alone.

The states are those of a recorded expression parser, so that the calls can be told from them.
-/

namespace Pug

open Text Token
open ExpressionParser (Call)

variable {σ E : Type} {source : List Char}

/-- A text stands in a template where a span says. -/
def Stands (source : List Char) (text : String) (span : Span) : Prop :=
  ∃ before after, source = before ++ text.toList ++ after ∧
    span = ⟨byteLength before, byteLength before + byteLength text.toList⟩

/-- A text stands between two places. -/
theorem Stands.places {text : String} {span : Span} (h : Stands source text span) :
    ∃ c d, Place source c ∧ c.Leads text.toList d ∧ c.offset = span.start ∧
      d.offset = span.stop := by
  obtain ⟨before, after, hs, rfl⟩ := h
  refine ⟨⟨byteLength before, text.toList ++ after⟩, ⟨_, after⟩, ⟨before, ?_, ?_⟩, ⟨rfl, rfl⟩, rfl, rfl⟩
  · rw [← List.append_assoc]
    exact hs
  · simp [Cursor.start]

theorem Place.stands {c d : Cursor} {w : List Char} (hc : Place source c) (h : c.Leads w d) :
    Stands source (String.ofList w) ⟨c.offset, c.offset + byteLength w⟩ := by
  obtain ⟨before, hs, ho⟩ := hc.exists_split
  exact ⟨before, d.rest, by simp [hs, h.1], by simp [ho]⟩

/-- An expression stands inside the text that its call takes, with no blanks around it. -/
theorem Consulted.embedded_stands {lo hi : Nat} {calls : List (Call E)} {es : List (Embedded E)}
    (h : Consulted source lo calls es hi) {e : Embedded E} (he : e ∈ es) :
    Stands source e.text e.span ∧ trim e.text.toList = e.text.toList ∧ ∃ call ∈ calls, ∃ bytes,
      call.answer = .accepted e.handle bytes ∧ call.offset source ≤ e.span.start ∧
        e.span.stop ≤ call.offset source + bytes := by
  obtain ⟨call, hcall, c, text, hc, hr, ht, he⟩ := h.exists_call he
  obtain ⟨ha, -, others, ho⟩ := Call.taken?_eq_some ht
  rw [hr] at ho
  have hl := Cursor.leads_past ho
  obtain ⟨m, n, blanks, hm, hn, hd, -, hspan⟩ := embed_leads hl e.handle
  have hstop := hd.offset_le
  rw [hl.2] at hstop
  rw [he, hspan]
  refine ⟨?_, by simp [trim_trim], call, hcall, _, ha, ?_, ?_⟩
  · rw [hn.2]
    exact (hc.leads hm).stands hn
  · rw [Call.offset_eq hc hr]
    exact hm.offset_le
  · rw [Call.offset_eq hc hr]
    exact hstop

/-- The states of an expression parser whose calls are recorded. -/
abbrev Recorded (σ E : Type) := ReadState (σ × List (Call E))

/-- The calls of the expression parser, the latest first. -/
def ReadState.calls (s : Recorded σ E) : List (Call E) :=
  s.parser.2

/-- The token that is nothing but an expression. -/
def Token.argument (e : Embedded E) : Token E :=
  (leaf .mixinArgs e.text e.span).withExpr e

@[simp] theorem Token.expr_argument (e : Embedded E) : (argument e).expr = some e := rfl

@[simp] theorem Token.children_argument (e : Embedded E) : (argument e).children = [] := rfl

@[simp] theorem Token.covers_argument (e : Embedded E) : (argument e).covers = [e.span, e.span] :=
  rfl

/-- A place where a word may start that stands by itself: the template starts there, or spacing, a
line break or a colon stands before it. -/
def Fresh (source : List Char) (c : Cursor) : Prop :=
  ∃ before, (Cursor.start source).Leads before c ∧ Keyword.endsKeyword before.reverse = true

namespace Fresh

theorem start (source : List Char) : Fresh source (.start source) :=
  ⟨[], .refl _, rfl⟩

theorem place {c : Cursor} (h : Fresh source c) : Place source c :=
  ⟨h.choose, h.choose_spec.1⟩

/-- Behind spacing, a line break or a colon a word may start. -/
theorem of_leads {c d : Cursor} {w : List Char} (hc : Place source c) (h : c.Leads w d)
    (hne : w ≠ []) (hw : Keyword.endsKeyword w.reverse = true) : Fresh source d := by
  obtain ⟨before, hb⟩ := hc
  refine ⟨before ++ w, hb.trans h, ?_⟩
  obtain ⟨x, xs, hx⟩ := List.exists_cons_of_ne_nil (mt List.reverse_eq_nil_iff.1 hne)
  rw [hx] at hw
  simpa [hx, Keyword.endsKeyword] using hw

/-- Behind spacing a word may start. -/
theorem of_spacing {c : Cursor} (hc : Place source c) (h : c.rest.takeWhile isSpacing ≠ []) :
    Fresh source c.skipSpacing := by
  refine of_leads hc c.leads_skipSpacing h ?_
  have hall : ∀ x ∈ (c.rest.takeWhile isSpacing).reverse, isSpacing x = true :=
    fun x hx ↦ List.mem_takeWhile_imp (List.mem_reverse.1 hx)
  obtain ⟨x, xs, hx⟩ := List.exists_cons_of_ne_nil (mt List.reverse_eq_nil_iff.1 h)
  rw [hx] at hall ⊢
  simp [Keyword.endsKeyword, hall x (List.mem_cons_self ..)]

/-- Where a word may start it may also start behind more spacing. -/
theorem skipSpacing {c : Cursor} (h : Fresh source c) : Fresh source c.skipSpacing := by
  by_cases hne : c.rest.takeWhile isSpacing = []
  · have hl := c.leads_skipSpacing
    rw [hne] at hl
    rw [← hl.past_eq]
    simpa [Cursor.past] using h
  · exact of_spacing h.place hne

end Fresh

/-- A move over a text, in which the expression parser is not asked. -/
structure Moved (s : ReadState σ) (w : List Char) (t : ReadState σ) : Prop where
  leads : s.cursor.Leads w t.cursor
  parser : t.parser = s.parser

theorem Moved.trans {s m t : ReadState σ} {v w : List Char} (h : Moved s v m) (k : Moved m w t) :
    Moved s (v ++ w) t :=
  ⟨h.leads.trans k.leads, k.parser.trans h.parser⟩

/-- The tokens that a run from one state to another has made. -/
structure Reading (source : List Char) (s : Recorded σ E) (ts : List (Token E))
    (t : Recorded σ E) : Prop where
  leads : ∃ w, s.cursor.Leads w t.cursor
  consulted : ∃ calls, t.calls = calls.reverse ++ s.calls ∧
    Consulted source s.cursor.offset calls (embeddedAll ts) t.cursor.offset
  stands : ∀ u ∈ preorderAll ts, Stands source u.text u.span
  ordered : Ordered s.cursor.offset (leafSpansAll ts) t.cursor.offset
  accounted : Accounted source s.cursor.offset (coversAll ts) t.cursor.offset

namespace Reading

variable {s m n t : Recorded σ E} {ts us : List (Token E)} {v w : List Char} {e : Embedded E}
variable {kind : Kind}

theorem refl (source : List Char) (s : Recorded σ E) : Reading source s [] s where
  leads := ⟨[], .refl _⟩
  consulted := ⟨[], rfl, by simpa using .nil (Nat.le_refl _)⟩
  stands := by simp
  ordered := Nat.le_refl _
  accounted := by simpa using .nil_of_le source (Nat.le_refl _)

theorem trans (h : Reading source s ts m) (k : Reading source m us t) :
    Reading source s (ts ++ us) t where
  leads := by
    obtain ⟨v, hv⟩ := h.leads
    obtain ⟨w, hw⟩ := k.leads
    exact ⟨v ++ w, hv.trans hw⟩
  consulted := by
    obtain ⟨cs, hcs, hc⟩ := h.consulted
    obtain ⟨ds, hds, hd⟩ := k.consulted
    exact ⟨cs ++ ds, by rw [hds, hcs]; simp, by simpa using hc.append hd⟩
  stands := by
    intro u hu
    rw [preorderAll_append, List.mem_append] at hu
    exact hu.elim (h.stands u) (k.stands u)
  ordered := by simpa using h.ordered.append k.ordered
  accounted := by simpa using h.accounted.append k.accounted

theorem cons {u : Token E} (h : Reading source s [u] m) (k : Reading source m us t) :
    Reading source s (u :: us) t :=
  h.trans k

/-- What is read without tokens may be put before a reading. -/
theorem after (h : Reading source s [] m) (k : Reading source m us t) : Reading source s us t :=
  h.trans k

/-- What is read without tokens may be put behind a reading. -/
theorem before (h : Reading source s ts m) (k : Reading source m [] t) :
    Reading source s ts t := by
  simpa using h.trans k

theorem place (h : Reading source s ts t) (hs : Place source s.cursor) : Place source t.cursor :=
  hs.leads h.leads.choose_spec

theorem offset_le (h : Reading source s ts t) : s.cursor.offset ≤ t.cursor.offset :=
  h.leads.choose_spec.offset_le

theorem length_rest_le (h : Reading source s ts t) :
    t.cursor.rest.length ≤ s.cursor.rest.length := by
  rw [h.leads.choose_spec.length_rest]
  exact Nat.le_add_left _ _

/-- Nothing is asked while a text is passed whose bytes need no span. -/
private theorem of_moved (h : Moved s w t)
    (ha : Accounted source s.cursor.offset [] t.cursor.offset) : Reading source s [] t where
  leads := ⟨w, h.leads⟩
  consulted := ⟨[], by simp [ReadState.calls, h.parser], by simpa using .nil h.leads.offset_le⟩
  stands := by simp
  ordered := h.leads.offset_le
  accounted := by simpa using ha

/-- Blanks and marks make no token. -/
theorem gap (hs : Place source s.cursor) (h : Moved s w t)
    (hw : ∀ x ∈ w, isBlank x = true ∨ isMark x = true) : Reading source s [] t :=
  of_moved h (accounted_of_marks hs h.leads hw)

/-- Nor does one of the words that tokens leave out. -/
theorem word {x : String} (hs : Fresh source s.cursor) (h : Moved s x.toList t)
    (hx : x ∈ separatorWords) (ends : Keyword.endsKeyword t.cursor.rest = true) :
    Reading source s [] t := by
  obtain ⟨before, hb, apart⟩ := hs
  have hsplit : source = before ++ x.toList ++ t.cursor.rest := by
    rw [List.append_assoc, ← h.leads.1]
    exact hb.1
  have ho : s.cursor.offset = byteLength before := by simpa [Cursor.start] using hb.2
  have ht := h.leads.2
  refine of_moved h fun i hl hh ↦ .inr (.word hsplit hx apart ends ?_ ?_)
  · omega
  · omega

/-- A token of the text that is passed. -/
theorem leaf (hs : Place source s.cursor) (h : Moved s w t) (hk : kind.isContainer = false) :
    Reading source s [.ofText kind s.cursor w] t where
  leads := ⟨w, h.leads⟩
  consulted := ⟨[], by simp [ReadState.calls, h.parser], by
    simpa [ofText, Token.leaf] using .nil h.leads.offset_le⟩
  stands := by
    intro u hu
    rw [preorderAll_cons] at hu
    simp only [ofText, Token.leaf, preorderAll_nil, List.append_nil, List.mem_singleton] at hu
    subst hu
    exact hs.stands h.leads
  ordered := by
    simp only [ofText, Token.leaf, leafSpansAll_cons, leafSpans_eq, hk, apart?]
    exact ⟨Nat.le_refl _, Nat.le_add_right _ _, Nat.le_of_eq h.leads.2.symm⟩
  accounted := by
    have : coversAll [(ofText kind s.cursor w : Token E)] =
        [⟨s.cursor.offset, t.cursor.offset⟩] := by
      simp [ofText, Token.leaf, covers, hk, h.leads.2]
    rw [this]
    exact .self _ _ _

/-- A container around what is read. -/
theorem wrap (h : Reading source s ts t) {u : Token E} (hu : Stands source u.text u.span)
    (hk : u.kind.isContainer = true) (he : u.expr = none) :
    Reading source s [u.withChildren ts] t where
  leads := h.leads
  consulted := by simpa [withChildren, he] using h.consulted
  stands := by
    intro x hx
    rw [preorderAll_cons] at hx
    simp only [withChildren, preorderAll_nil, List.append_nil] at hx
    rcases List.mem_cons.1 hx with rfl | hx
    · exact hu
    · exact h.stands x hx
  ordered := by
    rw [leafSpansAll_container (t := u.withChildren ts) hk he]
    exact h.ordered
  accounted := by
    have : coversAll [u.withChildren ts] = coversAll ts := by
      simp [withChildren, covers, hk, he]
    rw [this]
    exact h.accounted

/-- Children behind their token. -/
theorem below {u : Token E} (h : Reading source s [u] m) (he : u.expr = none)
    (hc : u.children = []) (k : Reading source m ts t) :
    Reading source s [u.withChildren ts] t := by
  have hkt := h.trans k
  refine ⟨hkt.leads, ?_, ?_, ?_, ?_⟩
  · simpa [withChildren, he, hc] using hkt.consulted
  · intro x hx
    rw [preorderAll_cons] at hx
    simp only [withChildren, preorderAll_nil, List.append_nil] at hx
    rcases List.mem_cons.1 hx with rfl | hx
    · exact h.stands u (by simp)
    · exact k.stands x hx
  · have : leafSpansAll [u.withChildren ts] = leafSpansAll ([u] ++ ts) := by
      simp [withChildren, leafSpans_eq, he, hc, apart?]
    rw [this]
    exact hkt.ordered
  · have : coversAll [u.withChildren ts] = coversAll ([u] ++ ts) := by
      simp [withChildren, covers, he, hc]
    rw [this]
    exact hkt.accounted

/-- A reading of some trees is a reading of any trees whose tokens say the same in the same order. -/
theorem of_bares (h : Reading source s ts t) (hb : bares us = bares ts)
    (hl : leafSpansAll us = leafSpansAll ts) : Reading source s us t where
  leads := h.leads
  consulted := by
    rw [embeddedAll_eq_bares, hb, ← embeddedAll_eq_bares]
    exact h.consulted
  stands := by
    intro u hu
    have hmem : u.bare ∈ bares ts := by
      rw [← hb]
      exact List.mem_map_of_mem hu
    obtain ⟨x, hx, he⟩ := List.mem_map.1 hmem
    obtain ⟨-, htext, hspan, -, -⟩ := Token.mk.inj he
    rw [← htext, ← hspan]
    exact h.stands x hx
  ordered := by
    rw [hl]
    exact h.ordered
  accounted := by
    rw [coversAll_eq_bares, hb, ← coversAll_eq_bares]
    exact h.accounted

section Argument

/-- An expression that is read lies between the two states. -/
theorem argument_bounds (h : Reading source s [argument e] t) :
    s.cursor.offset ≤ e.span.start ∧ e.span.start ≤ e.span.stop ∧
      e.span.stop ≤ t.cursor.offset := by
  have ho := h.ordered
  simp only [leafSpansAll_cons, leafSpans_eq] at ho
  exact ⟨ho.1, ho.2.1, ho.2.2.le⟩

theorem argument_consulted (h : Reading source s [argument e] t) :
    ∃ calls, t.calls = calls.reverse ++ s.calls ∧
      Consulted source s.cursor.offset calls [e] t.cursor.offset := by
  simpa using h.consulted

theorem argument_stands (h : Reading source s [argument e] t) :
    Stands source e.text e.span :=
  h.stands (argument e) (by simp)

/-- A byte before or behind an expression that is read with it is a separator. -/
theorem argument_accounted (h : Reading source s [argument e] t) :
    Accounted source s.cursor.offset [e.span] t.cursor.offset :=
  h.accounted.mono (by simp)

/-- A token whose expression stands behind it and behind its children. -/
theorem behind {u : Token E} (h : Reading source s [u] m) (hk : u.kind.isContainer = false)
    (he : u.expr = none) (hc : u.children = []) (k : Reading source m ts n)
    (hts : ∀ x ∈ ts, x.span.start < e.span.start ∧ x.expr = none ∧ x.children = [])
    (l : Reading source n [argument e] t) :
    Reading source s [(u.withExpr e).withChildren ts] t := by
  have hb := l.argument_bounds
  have hu : u.span.stop ≤ m.cursor.offset :=
    h.ordered.stop_le_hi u.span (by simp [leafSpans_eq, hk])
  have hts' : embeddedAll ts = [] := by
    clear k
    induction ts with
    | nil => simp
    | cons x xs ih =>
      have hx := hts x (List.mem_cons_self ..)
      rw [← List.singleton_append, embeddedAll_append,
        ih (fun y hy ↦ hts y (List.mem_cons_of_mem _ hy))]
      simp [hx.2.1, hx.2.2]
  have hkt := (h.trans k).trans l
  refine ⟨hkt.leads, ?_, ?_, ?_, ?_⟩
  · simpa [withChildren, withExpr, he, hc, hts'] using hkt.consulted
  · intro x hx
    rw [preorderAll_cons] at hx
    simp only [withChildren, withExpr, preorderAll_nil, List.append_nil] at hx
    rcases List.mem_cons.1 hx with rfl | hx
    · exact h.stands u (by simp)
    · exact k.stands x hx
  · have ha : apart? u.span (some e) = some e.span := by
      have := k.offset_le
      simp only [apart?, Option.map_some, Option.filter_some, decide_eq_true_eq]
      rw [if_pos (by omega)]
    have : leafSpansAll [(u.withExpr e).withChildren ts] =
        leafSpansAll [u] ++ leafSpansAll ts ++ [e.span] := by
      simp only [withChildren, withExpr, leafSpansAll_cons, leafSpansAll_nil, List.append_nil,
        leafSpans_eq, hk, ha, he, hc]
      rw [leafSpansBelow_of_forall_lt fun x hx ↦ (hts x hx).1]
      simp [apart?]
    rw [this]
    exact (h.ordered.append k.ordered).append ⟨hb.1, hb.2.1, hb.2.2⟩
  · refine hkt.accounted.mono fun x hx ↦ ?_
    have hu : u.covers = [u.span] := by simp [covers, hk, he]
    have hv : ((u.withExpr e).withChildren ts).covers = [u.span, e.span] := by
      simp [covers, withChildren, withExpr, hk]
    simp only [coversAll_append, coversAll_cons, coversAll_nil, covers_argument, hu, hv, hc,
      children_argument, List.append_nil, List.mem_append, List.mem_cons] at hx ⊢
    change _ ∨ x ∈ coversAll ts
    grind

/-- A token whose expression stands behind it. -/
theorem value {u : Token E} (h : Reading source s [u] m) (hk : u.kind.isContainer = false)
    (he : u.expr = none) (hc : u.children = []) (k : Reading source m [] n)
    (l : Reading source n [argument e] t) : Reading source s [u.withExpr e] t := by
  have hv : (u.withExpr e).withChildren [] = u.withExpr e := by
    rw [withChildren, withExpr, ← hc]
  rw [← hv]
  exact h.behind hk he hc k (by simp) l

/-- A token around an expression: of the text from an offset before the expression up to the end
of what is read. -/
theorem around {lo : Nat} {text : String} (a : Moved s v m)
    (h : Reading source m [argument e] n) (b : Moved n w t) (hk : kind.isContainer = false)
    (hl : s.cursor.offset ≤ lo) (hle : lo ≤ e.span.start)
    (ha : Accounted source s.cursor.offset [] lo)
    (hst : Stands source text ⟨lo, t.cursor.offset⟩) :
    Reading source s [⟨kind, text, ⟨lo, t.cursor.offset⟩, some e, []⟩] t := by
  have hb := h.argument_bounds
  have hnt := b.leads.offset_le
  obtain ⟨w', hw'⟩ := h.leads
  refine ⟨⟨_, (a.leads.trans hw').trans b.leads⟩, ?_, ?_, ?_, ?_⟩
  · obtain ⟨calls, hc, hcs⟩ := h.argument_consulted
    refine ⟨calls, ?_, ?_⟩
    · simpa [ReadState.calls, a.parser, b.parser] using hc
    · simpa using (hcs.of_le a.leads.offset_le).mono hnt
  · intro x hx
    simp only [preorderAll_cons, preorderAll_nil, List.append_nil, List.mem_singleton] at hx
    subst hx
    exact hst
  · simp only [leafSpansAll_cons, leafSpansAll_nil, leafSpans_eq, hk, leafSpansBelow_nil, apart?,
      Option.map_some, Option.filter_some, List.append_nil]
    refine ⟨hl, show lo ≤ t.cursor.offset by omega, ?_⟩
    split
    · rename_i he
      have he : t.cursor.offset ≤ e.span.start := by simpa using he
      exact ⟨he, hb.2.1, show e.span.stop ≤ t.cursor.offset by omega⟩
    · exact Nat.le_refl _
  · have := ha.append (.self source lo t.cursor.offset)
    exact this.mono (by simp [covers, hk])

/-- A token of the beginning of an expression. -/
theorem beginning {text : String} {stop : Nat} (h : Reading source s [argument e] t)
    (hk : kind.isContainer = false) (hl : e.span.start ≤ stop) (hh : stop ≤ e.span.stop)
    (hst : Stands source text ⟨e.span.start, stop⟩) :
    Reading source s [⟨kind, text, ⟨e.span.start, stop⟩, some e, []⟩] t := by
  have hb := h.argument_bounds
  refine ⟨h.leads, ?_, ?_, ?_, ?_⟩
  · simpa using h.argument_consulted
  · intro x hx
    simp only [preorderAll_cons, preorderAll_nil, List.append_nil, List.mem_singleton] at hx
    subst hx
    exact hst
  · simp only [leafSpansAll_cons, leafSpansAll_nil, leafSpans_eq, hk, leafSpansBelow_nil, apart?,
      Option.map_some, Option.filter_some, List.append_nil]
    refine ⟨hb.1, hl, ?_⟩
    split
    · rename_i he
      have he : stop ≤ e.span.start := by simpa using he
      exact ⟨he, hb.2.1, hb.2.2⟩
    · exact Nat.le_trans hh hb.2.2
  · exact h.argument_accounted.mono (by simp [covers])

end Argument

end Reading

end Pug

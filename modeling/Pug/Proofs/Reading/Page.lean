import Pug.Grammar.Page
import Pug.Proofs.Layout.Outline
import Pug.Proofs.Reading.Line

/-!
# Readings of templates

The lines of an outline are read one after the other, each under a line of the spine. So what the
tree of a template says, token by token, is what its lines say, and the whole run is one reading
from the start of the template to its end.
-/

namespace Pug

open Text Token Reader
open ExpressionParser (Call recorded)

variable {σ E : Type} {source : List Char} {s m t : Recorded σ E}
variable {g : Setup (σ × List (Call E)) E} {parser : ExpressionParser σ E}

/-- The lines of an outline that have been read between two states. -/
structure OutlineRead (source : List Char) (s : Recorded σ E) (o : Outline E) (t : Recorded σ E) :
    Prop where
  reading : Reading source s o.tokens t
  spine : ∃ ids, o.HasSpine ids
  lines : ∀ a ∈ o.tokens, IsLine a
  ordered : o.tokens.Pairwise fun a b ↦ ∀ x ∈ leafSpansAll [a], x.start ≤ b.span.start

namespace OutlineRead

variable {o o' : Outline E} {line : Token E}

theorem empty (source : List Char) (s : Recorded σ E) (maxDepth : Nat) :
    OutlineRead source s (.empty maxDepth) s where
  reading := .refl source s
  spine := ⟨_, .empty maxDepth⟩
  lines := nofun
  ordered := .nil

theorem before (h : OutlineRead source s o m) (k : Reading source m [] t) :
    OutlineRead source s o t :=
  ⟨h.reading.before k, h.spine, h.lines, h.ordered⟩

/-- A line that starts where the lines before it have been read to. -/
theorem add (h : OutlineRead source s o m) (hl : Line.LineToken source m line t)
    (ht : o'.tokens = o.tokens ++ [line]) (hs : ∃ ids, o'.HasSpine ids) :
    OutlineRead source s o' t where
  reading := by
    rw [ht]
    exact h.reading.trans hl.reading
  spine := hs
  lines := by
    intro a ha
    rw [ht] at ha
    rcases List.mem_append.1 ha with ha | ha
    · exact h.lines a ha
    · rw [List.mem_singleton.1 ha]
      exact hl.isLine
  ordered := by
    rw [ht]
    refine List.pairwise_append.2 ⟨h.ordered, List.pairwise_singleton .., fun a ha b hb x hx ↦ ?_⟩
    rw [List.mem_singleton.1 hb, hl.start]
    have hx : x ∈ leafSpansAll o.tokens := by
      obtain ⟨as, bs, hab⟩ := List.append_of_mem ha
      rw [leafSpansAll_cons, leafSpansAll_nil, List.append_nil] at hx
      rw [hab, leafSpansAll_append, leafSpansAll_cons]
      exact List.mem_append_right _ (List.mem_append_left _ hx)
    have := h.reading.ordered.start_le_stop x hx
    have := h.reading.ordered.stop_le_hi x hx
    omega

/-- The tree of the lines is a reading like the lines themselves. -/
theorem finish (h : OutlineRead source s o t) : Reading source s o.finish.children t := by
  obtain ⟨ids, hs⟩ := h.spine
  have hl : ∀ e ∈ o.entries, IsLine e.token := fun e he ↦
    h.lines e.token (List.mem_map_of_mem (Array.mem_toList_iff.2 he))
  exact h.reading.of_bares (Outline.bares_finish hs hl) (Outline.leafSpansAll_finish hs hl h.ordered)

/-- What a token of a line says is said by a token of the tree. -/
theorem mem_finish (h : OutlineRead source s o t) {a b : Token E} (ha : a ∈ o.tokens)
    (hb : b ∈ a.preorder) : ∃ b' ∈ o.finish.preorder, b'.bare = b.bare := by
  obtain ⟨ids, hs⟩ := h.spine
  have hl : ∀ e ∈ o.entries, IsLine e.token := fun e he ↦
    h.lines e.token (List.mem_map_of_mem (Array.mem_toList_iff.2 he))
  have hmem : b.bare ∈ bares o.finish.children := by
    obtain ⟨as, bs, hab⟩ := List.append_of_mem ha
    rw [Outline.bares_finish hs hl, hab, bares_append]
    refine List.mem_append_right _ (List.mem_map_of_mem ?_)
    rw [preorderAll_cons, ← List.cons_append, ← preorder_eq]
    exact List.mem_append_left _ hb
  obtain ⟨b', hb', hbare⟩ := List.mem_map.1 hmem
  exact ⟨b', by rw [preorder_eq]; exact List.mem_cons_of_mem _ hb', hbare⟩

end OutlineRead

namespace Page

/-- What has been read of a template: the lines so far, where a word may start again. The lines
that a block of text may still take lie under the innermost open line. -/
structure PageRead (source : List Char) (s : Recorded σ E) (page : Page E) (t : Recorded σ E) :
    Prop where
  outline : OutlineRead source s page.outline t
  verbatim : ∀ block ∈ page.verbatim, page.outline.openLines.getLast? = some block.owner
  fresh : t.cursor.rest ≠ [] → Fresh source t.cursor

theorem fresh_nextLine {c : Cursor} (hc : Place source c) (h : c.atLineEnd = true)
    (hr : c.nextLine.rest ≠ []) : Fresh source c.nextLine := by
  have hne : c.rest ≠ [] := by
    intro hnil
    have hl := c.leads_nextLine.1
    rw [hnil] at hl
    exact hr (List.append_eq_nil_iff.1 hl.symm).2
  refine .of_leads hc c.leads_nextLine (Cursor.lineBreak_ne_nil h hne) ?_
  obtain ⟨x, xs, hx⟩ := List.exists_cons_of_ne_nil
    (mt List.reverse_eq_nil_iff.1 (Cursor.lineBreak_ne_nil h hne))
  have hmem : x ∈ c.lineBreak.reverse := by
    rw [hx]
    exact List.mem_cons_self ..
  have hb : isBreak x = true := Cursor.isBreak_of_mem_lineBreak (List.mem_reverse.1 hmem)
  rw [hx]
  simp [Keyword.endsKeyword, hb]

/-- The end of a line has been passed between two cursors. -/
def PassedLine (source : List Char) (c d : Cursor) : Prop :=
  ∃ e, Place source e ∧ c.offset ≤ e.offset ∧ e.atLineEnd = true ∧ d.rest.length ≤ e.rest.length

/-- From inside a line the cursor must move to pass the end of a line. -/
theorem PassedLine.length_rest_lt {c d : Cursor} (h : PassedLine source c d)
    (hc : Place source c) (hin : c.atLineEnd = false) : d.rest.length < c.rest.length := by
  obtain ⟨e, he, hle, hend, hlen⟩ := h
  obtain ⟨w, hw⟩ := hc.leads_to he hle
  have hne : w ≠ [] := by
    rintro rfl
    have hr : c.rest = e.rest := hw.1
    rw [Cursor.atLineEnd, hr] at hin
    rw [Cursor.atLineEnd, hin] at hend
    contradiction
  have := hw.length_rest
  have := List.length_pos_iff.2 hne
  omega

theorem ensures_expectLine {o : Outline E} {id : LineId} {s : ReadState σ}
    {post : Unit → ReadState σ → Prop} {broken : Failure → ReadState σ → Prop}
    (h : o.has id = true) (hp : post () s) : (expectLine o id).Ensures s post broken := by
  unfold expectLine
  rw [if_pos h]
  exact hp

theorem level_reads (hs : Settled source s) {start : Cursor} (hc : Place source start)
    (run : List Char) :
    (level start run).Ensures s (fun _ t ↦ Reading source s [] t ∧ t.cursor = s.cursor)
      (Broken source) := by
  unfold level
  simp only [ensures_bind, ensures_get, ensures_set]
  have hread := reading_unit hs.place (Indent.level s.unit run).2
  split
  · exact ⟨hread, rfl⟩
  · exact (hs.of_reading hread).broken (hc.leads (start.leads_skip _)) _ _

theorem margin_reads (hs : Place source s.cursor) (verbatim : Option Verbatim) (run : List Char) :
    (margin? verbatim run).Ensures s
      (fun r t ↦ Reading source s [] t ∧ t.cursor = s.cursor ∧
        ∀ x ∈ r, x.1 ∈ verbatim ∧ ∃ others, run = x.2 ++ others) (Broken source) := by
  unfold margin?
  split
  · exact ⟨.refl source s, rfl, by rintro _ ⟨⟩⟩
  · rename_i block
    simp only [ensures_bind, ensures_get, ensures_set, ensures_pure]
    refine ⟨reading_unit hs _, trivial, fun x hx ↦ ?_⟩
    obtain ⟨margin, hm, rfl⟩ := Option.map_eq_some_iff.1 hx
    refine ⟨by simp, ?_⟩
    unfold Indent.marginOf at hm
    split at hm
    · contradiction
    · dsimp only at hm
      split at hm
      · rename_i hp
        cases hm
        obtain ⟨others, ho⟩ := List.isPrefixOf_iff_prefix.1 (Bool.and_eq_true_iff.1 hp).2
        exact ⟨others, ho.symm⟩
      · contradiction

section

variable {level : Nat}

/-- The lines that follow a line on the same line of the template. -/
theorem followers_reads (hg : g.Records parser source) (hs : Settled source s) (levels : Nat)
    {o : Outline E} {owner : LineId} (h : OutlineRead source s o m)
    (ho : o.openLines.getLast? = some owner) (hfresh : Fresh source m.cursor) :
    (followers g level levels o owner).Ensures m
      (fun r t ↦ OutlineRead source s r.1 t ∧ r.1.openLines.getLast? = some r.2.1 ∧
        m.cursor.offset ≤ t.cursor.offset) (Broken source) := by
  induction levels generalizing m o owner with
  | zero =>
    have hspace := reading_skipSpacing hfresh.place
    have hm := h.before hspace
    unfold followers
    simp only [ensures_bind, ensures_skipSpacing, ensures_here]
    split
    · exact ⟨hm, ho, hspace.offset_le⟩
    · exact (hs.of_reading hm.reading).broken (hspace.place hfresh.place) _ _
  | succ levels ih =>
    have hspace := reading_skipSpacing hfresh.place
    have hm := h.before hspace
    unfold followers
    simp only [ensures_bind, ensures_skipSpacing, ensures_here]
    split
    · exact ⟨hm, ho, hspace.offset_le⟩
    · simp only [ensures_bind]
      refine (Line.markup_reads hg (hs.of_reading hm.reading) hfresh.skipSpacing level).mono ?_
      rintro r n ⟨hline, htail⟩
      obtain ⟨ids, hids⟩ := h.spine
      have howner : owner ∈ ids :=
        hids.openLines.subset (List.mem_reverse.2 (List.mem_of_getLast? ho))
      refine ensures_expectLine (hids.has howner) ?_
      obtain ⟨ids', hids', hlast⟩ := hids.expand ho r.1
      have hread := hm.add hline (o.tokens_expand owner r.1) ⟨ids', hids'⟩
      have hle := (hspace.trans hline.reading).offset_le
      split
      · rename_i hfollow
        refine (ih hread hlast (htail hfollow)).mono ?_
        rintro r t ⟨ht, hlast, hle'⟩
        exact ⟨ht, hlast, Nat.le_trans hle hle'⟩
      · exact ⟨hread, hlast, hle⟩

theorem chain_reads (hg : g.Records parser source) (hs : Settled source s) {o : Outline E}
    (h : OutlineRead source s o m) (hfresh : Fresh source m.cursor) :
    (chain g level o).Ensures m
      (fun r t ↦ OutlineRead source s r.1 t ∧ r.1.openLines.getLast? = some r.2.1 ∧
        m.cursor.offset ≤ t.cursor.offset) (Broken source) := by
  have hsm := hs.of_reading h.reading
  obtain ⟨ids, hids⟩ := h.spine
  unfold chain
  simp only [ensures_bind, ensures_here]
  refine (Line.markup_reads hg hsm hfresh level).mono ?_
  rintro r n ⟨hline, htail⟩
  refine ensures_expectLine (hids.has (hids.parentAt_mem level)) ?_
  split
  · exact (hsm.of_reading hline.reading).broken hfresh.place _ _
  · rename_i o' owner ho
    obtain ⟨ids', hids', hlast⟩ := hids.openLine ho
    have hread := h.add hline (Outline.tokens_openLine ho) ⟨ids', hids'⟩
    have hle := hline.reading.offset_le
    split
    · rename_i hfollow
      refine (followers_reads hg hs _ hread hlast (htail hfollow)).mono ?_
      rintro r t ⟨ht, hlast, hle'⟩
      exact ⟨ht, hlast, Nat.le_trans hle hle'⟩
    · exact ⟨hread, hlast, hle⟩

theorem markupLine_reads (hg : g.Records parser source) (hs : Settled source s) {o : Outline E}
    (h : OutlineRead source s o m) (hfresh : Fresh source m.cursor) :
    (markupLine g o m.cursor (m.cursor.rest.takeWhile isSpacing)).Ensures m
      (fun p t ↦ PageRead source s p t ∧ PassedLine source m.cursor t.cursor)
      (Broken source) := by
  have hsm := hs.of_reading h.reading
  unfold markupLine
  simp only [ensures_bind]
  refine (level_reads hsm hsm.place _).mono ?_
  rintro level n ⟨hn, hcursor⟩
  have hspace : Reading source m [] { n with cursor := m.cursor.skipSpacing } := by
    have := hn.trans (reading_skipSpacing (hn.place hsm.place))
    rwa [hcursor] at this
  have hplace := hspace.place hsm.place
  have hread := h.before hspace
  split
  · exact (hs.of_reading (h.before hn).reading).broken hplace _ _
  · simp only [ensures_bind, ensures_moveTo]
    refine (chain_reads hg hs hread hfresh.skipSpacing).mono ?_
    rintro r u ⟨hu, hlast, hle⟩
    have hsu := hs.of_reading hu.reading
    refine (endRun_reads hsu false).mono ?_
    rintro _ v ⟨_, hend, hv⟩
    have hend : v.cursor.atLineEnd = true := by simpa [Cursor.atRunEnd] using hend
    have hsv := hsu.of_reading hv
    have hnext := reading_nextLine hsv.place
    have hread := (hu.before hv).before hnext
    have hfresh : v.cursor.nextLine.rest ≠ [] → Fresh source v.cursor.nextLine :=
      fresh_nextLine hsv.place hend
    have hpassed : PassedLine source m.cursor v.cursor.nextLine :=
      ⟨v.cursor, hsv.place, Nat.le_trans hspace.offset_le (Nat.le_trans hle hv.offset_le), hend,
        hnext.length_rest_le⟩
    simp only [ensures_here]
    split
    · exact ⟨⟨hread, by rintro _ ⟨⟩; exact hlast, hfresh⟩, hpassed⟩
    · exact ⟨⟨hread, by rintro _ ⟨⟩, hfresh⟩, hpassed⟩

theorem textLine_reads (hg : g.Records parser source) (hs : Settled source s) {o : Outline E}
    {block : Verbatim} (h : OutlineRead source s o m)
    (ho : o.openLines.getLast? = some block.owner) :
    (textLine g o block).Ensures m
      (fun p t ↦ PageRead source s p t ∧ PassedLine source m.cursor t.cursor)
      (Broken source) := by
  have hsm := hs.of_reading h.reading
  obtain ⟨ids, hids⟩ := h.spine
  unfold textLine
  simp only [ensures_bind]
  refine (Line.verbatim_reads hg hsm block.interpolate).mono ?_
  rintro line u ⟨hline, hend⟩
  have hsu := hsm.of_reading hline.reading
  have hnext := reading_nextLine hsu.place
  have howner : block.owner ∈ ids :=
    hids.openLines.subset (List.mem_reverse.2 (List.mem_of_getLast? ho))
  simp only [ensures_here, ensures_moveTo]
  refine ensures_expectLine (hids.has howner) ⟨⟨?_, ?_, ?_⟩, ?_⟩
  · exact (h.add hline (Outline.tokens_add o _ line) (hids.append ho)).before hnext
  · rintro _ ⟨⟩
    exact ho
  · exact fresh_nextLine hsu.place hend
  · exact ⟨u.cursor, hsu.place, hline.reading.offset_le, hend, hnext.length_rest_le⟩

theorem line_reads (hg : g.Records parser source) (hs : Settled source s) {page : Page E}
    (h : PageRead source s page m) (hm : m.cursor.rest ≠ []) :
    (line g page).Ensures m
      (fun p t ↦ PageRead source s p t ∧ t.cursor.rest.length < m.cursor.rest.length)
      (Broken source) := by
  obtain ⟨outline, verbatim⟩ := page
  have hsm := hs.of_reading h.outline.reading
  have hspace := reading_skipSpacing hsm.place
  have hcontent : m.cursor.past (m.cursor.rest.takeWhile isSpacing) = m.cursor.skipSpacing := rfl
  unfold line
  simp only [ensures_bind, ensures_here, hcontent]
  refine ensures_ite (fun hend ↦ ?_) fun hin ↦ ?_
  · -- A blank line.
    have hnext := reading_nextLine (hspace.place hsm.place)
    refine ⟨⟨(h.outline.before hspace).before hnext, h.verbatim, ?_⟩, ?_⟩
    · exact fresh_nextLine (hspace.place hsm.place) hend
    · have h₁ := (Cursor.leads_skipSpacing m.cursor).length_rest
      have h₂ := (Cursor.leads_nextLine m.cursor.skipSpacing).length_rest
      have h₃ := List.length_pos_iff.2 hm
      change m.cursor.skipSpacing.nextLine.rest.length < _
      by_cases hr : m.cursor.skipSpacing.rest = []
      · rw [hr, List.length_nil] at h₂
        omega
      · have := List.length_pos_iff.2 (Cursor.lineBreak_ne_nil hend hr)
        omega
  · have hin' : m.cursor.atLineEnd = false := by
      rw [Bool.eq_false_iff]
      intro hend
      refine hin ?_
      rw [← (Cursor.leads_skipSpacing m.cursor).past_eq, Cursor.takeWhile_isSpacing_eq_nil hend]
      simpa [Cursor.past] using hend
    simp only [ensures_bind]
    refine (margin_reads hsm.place verbatim _).mono ?_
    rintro r n ⟨hn, hcursor, hr⟩
    have hread := h.outline.before hn
    have hle := hn.offset_le
    split
    · rename_i block margin
      obtain ⟨hb, others, ho⟩ := hr _ rfl
      have hrun : m.cursor.rest = margin ++ (others ++ m.cursor.skipSpacing.rest) := by
        rw [← List.append_assoc, ← ho]
        exact m.cursor.leads_skipSpacing.1
      have hl : n.cursor.Leads margin (m.cursor.past margin) := by
        rw [hcursor]
        exact Cursor.leads_past hrun
      have hgap : Reading source n [] { n with cursor := m.cursor.past margin } := by
        refine .gap (hn.place hsm.place) (moved_to hl) fun x hx ↦ .inl ?_
        have hmem : x ∈ m.cursor.rest.takeWhile isSpacing := by
          rw [ho]
          exact List.mem_append_left _ hx
        exact isBlank_of_mem_spacing hmem
      have hstart : m.cursor.offset + byteLength margin = (m.cursor.past margin).offset := by
        rw [hl.2, hcursor]
      simp only [ensures_bind, ensures_moveTo]
      rw [hstart]
      refine ensures_placeAt (hcursor ▸ hl) ?_
      refine (textLine_reads hg hs (hread.before hgap) (h.verbatim _ hb)).mono ?_
      rintro p t ⟨ht, e, he⟩
      refine ⟨ht, PassedLine.length_rest_lt ⟨e, he.1, ?_, he.2.2⟩ hsm.place hin'⟩
      exact Nat.le_trans hle (Nat.le_trans hgap.offset_le he.2.1)
    · rw [← hcursor]
      refine (markupLine_reads hg hs hread (hcursor ▸ h.fresh hm)).mono ?_
      rintro p t ⟨ht, e, he⟩
      refine ⟨ht, ?_⟩
      rw [hcursor]
      exact PassedLine.length_rest_lt ⟨e, he.1, Nat.le_trans hle he.2.1, he.2.2⟩ hsm.place hin'

/-- Line by line a template is read to its end. -/
theorem lines_reads (hg : g.Records parser source) (hs : Settled source s) (n : Nat)
    {page : Page E} (h : PageRead source s page m) (hn : m.cursor.rest.length < n) :
    (lines g n page).Ensures m
      (fun p t ↦ OutlineRead source s p.outline t ∧ t.cursor.rest = []) (Broken source) := by
  induction n generalizing m page with
  | zero => exact absurd hn (Nat.not_lt_zero _)
  | succ n ih =>
    unfold lines
    simp only [ensures_bind, ensures_here]
    refine ensures_ite (fun hend ↦ ⟨h.outline, List.isEmpty_iff.1 hend⟩) fun hin ↦ ?_
    have hm : m.cursor.rest ≠ [] := fun hnil ↦ hin (List.isEmpty_iff.2 hnil)
    simp only [ensures_bind]
    refine (line_reads hg hs h hm).mono ?_
    rintro p t ⟨ht, hlt⟩
    exact ih ht (by omega)

end

end Page

/-- What a run over a whole template ends with: a tree whose top tokens are read from the start of
the template to its end, or a failure of the template or of the expression parser. -/
def TemplateRead (source : List Char) (s : σ) :
    EStateM.Result Failure (Recorded σ E) (Token E) → Prop
  | .ok root t => root = ⟨.root, "", ⟨0, 0⟩, none, root.children⟩ ∧ t.cursor.rest = [] ∧
      Reading source ⟨.start source, none, (s, [])⟩ root.children t
  | .error f t => Broken source f t

/-- The lines of a template are read from its start to its end. -/
theorem Page.template_reads (parser : ExpressionParser σ E) (maxDepth : Nat) (source : List Char)
    (s : σ) : (Page.lines ⟨recorded parser, maxDepth, source.length + 1⟩ (source.length + 1)
      (.empty maxDepth)).Ensures ⟨.start source, none, (s, [])⟩
      (fun p t ↦ OutlineRead source ⟨.start source, none, (s, [])⟩ p.outline t ∧ t.cursor.rest = [])
      (Broken source) := by
  have hg : Setup.Records ⟨recorded parser, maxDepth, source.length + 1⟩ parser source :=
    ⟨rfl, Nat.lt_succ_self _⟩
  have hs : Settled source (⟨.start source, none, (s, [])⟩ : Recorded σ E) :=
    ⟨.start source, [], .nil (Nat.le_refl _)⟩
  have hpage : Page.PageRead source ⟨.start source, none, (s, [])⟩ (.empty maxDepth : Page E)
      ⟨.start source, none, (s, [])⟩ :=
    ⟨.empty source _ maxDepth, nofun, fun _ ↦ .start source⟩
  exact Page.lines_reads hg hs (source.length + 1) hpage (Nat.lt_succ_self _)

theorem readTemplate_reads (parser : ExpressionParser σ E) (maxDepth : Nat) (source : List Char)
    (s : σ) : TemplateRead source s (readTemplate (recorded parser) maxDepth source (s, [])) := by
  unfold readTemplate
  refine Ensures.elim ?_
  simp only [ensures_bind, ensures_pure]
  refine (Page.template_reads parser maxDepth source s).mono ?_
  rintro p t ⟨ht, hend⟩
  exact ⟨rfl, hend, ht.finish⟩

end Pug

import Pug.Expression.Loose
import Pug.Proofs.Grammar.Payload
import Pug.Proofs.Lockstep.Chain

/-!
# Trees keep the grammar

A line as it is read says one sound thing. The lines of a template form chains, and in a chain each
line but the last takes the next; so the tree of a chain is sound if the trees under it are. Every
line that is read makes one more chain of the outline, under the last line of an earlier one, and so
the tree of a whole template is sound whatever the template and the expression parser are.
-/

namespace Pug

open Token Reader Outline
open ExpressionParser (loose)

variable {σ E : Type} {g : Setup σ E}

namespace Line

/-- A line as it is read: it says one thing, which is sound. -/
structure IsRuled (line : Token E) : Prop where
  kind : line.kind = .line
  expr : line.expr = none
  payload : ∃ p : Token E, line.children = [p] ∧ p.IsSound ∧ p.kind.isPayload = true ∧ p.IsInner

/-- Another line may follow on the same line of the template. -/
def Takes (line : Token E) : Prop :=
  ∃ p : Token E, line.children = [p] ∧ p.TakesLine

theorem lineFrom_ruled (start : Cursor) {p : Token E} (hs : p.IsSound)
    (hk : p.kind.isPayload = true) (hi : p.IsInner) :
    (lineFrom start p : Reader σ (Token E)).Makes fun line ↦ IsRuled line ∧ line.children = [p] :=
  .after fun _ ↦ .after fun _ ↦ .pure ⟨⟨rfl, rfl, p, rfl, hs, hk, hi⟩, rfl⟩

theorem markup_ruled (level : Nat) :
    (markup g level).Makes fun r ↦ IsRuled r.1 ∧ (r.2 = .follow → Takes r.1) := by
  refine .after fun start ↦ .bind ((payload_tells level).and (payload_makes level)) fun r hr ↦ ?_
  obtain ⟨htells, hinner⟩ := hr
  refine .bind (lineFrom_ruled start htells.sound htells.kind hinner.inner) fun line hline ↦ ?_
  exact .pure ⟨hline.1, fun hf ↦ ⟨r.1, hline.2, htells.follow hf⟩⟩

/-- A run of text, which is all that a line of text says. -/
structure IsRun (t : Token E) : Prop where
  sound : t.IsSound
  kind : t.kind = .linePlainText
  inner : t.IsInner

theorem onLine_run : (TextRun.onLine g).Makes IsRun :=
  ((TextRun.run_fits (Tag.inlineTag_fits _)).and (TextRun.run_makes (Tag.inlineTag_makes _))).mono
    fun _ ht ↦ ⟨ht.1.1.sound, ht.1.2, ht.2⟩

theorem bareText_run : (bareText : Reader σ (Token E)).Makes IsRun := by
  refine .after fun start ↦ .after fun _ ↦ ?_
  refine .bind (tokenFrom_eq_leaf start .linePlainText) fun run hrun ↦ ?_
  refine .bind (tokenFrom_eq_leaf start .plainText) fun t ht ↦ .pure ?_
  obtain ⟨text, span, rfl⟩ := hrun
  obtain ⟨text', span', rfl⟩ := ht
  have hpiece : (leaf .plainText text' span' : Token E).Fits Kind.isPiece :=
    fits_leaf rfl rfl rfl (by decide)
  refine ⟨(fits_run rfl (List.forall_mem_singleton.2 hpiece)).sound, rfl, ?_⟩
  refine (isInner_leaf (by decide) text span).withChildren ?_
  exact List.forall_mem_singleton.2 (isInner_leaf (by decide) _ _)

theorem verbatim_ruled (interpolate : Bool) : (verbatim g interpolate).Makes IsRuled := by
  refine .after fun start ↦ ?_
  have hline : ∀ t : Token E, IsRun t → (lineFrom start t : Reader σ (Token E)).Makes IsRuled :=
    fun t ht ↦ (lineFrom_ruled start ht.sound (by rw [ht.kind]; rfl) ht.inner).mono fun _ h ↦ h.1
  exact .ite (.bind onLine_run hline) (.bind bareText_run hline)

end Line

open Line (IsRuled Takes)

namespace Token

/-- A line and those that follow it on the same line of the template. -/
def RuledChain : Token E → List (Token E) → Prop
  | line, [] => IsRuled line
  | line, next :: followers => IsRuled line ∧ Takes line ∧ RuledChain next followers

section Nest

variable {line p : Token E} {nested : List (Token E)}

/-- No line follows behind what is inner. -/
theorem IsInner.not_carriesLine (h : p.IsInner) : ¬p.CarriesLine := by
  have hchildren := (isInner_iff.1 h).2
  rintro (⟨u, hu, hk⟩ | ⟨-, tag, htag, u, hu, hk⟩)
  · exact (isInner_iff.1 (hchildren u hu)).1 hk
  · have hu := (isInner_iff.1 (hchildren tag htag)).2 u hu
    exact (isInner_iff.1 hu).1 hk

/-- A line with one payload and lines behind it, of which there are none if the payload carries a
line already. -/
theorem isSound_line (hk : line.kind = .line) (he : line.expr = none)
    (hc : line.children = p :: nested) (hp : p.IsSound) (hpayload : p.kind.isPayload = true)
    (hnested : ∀ t ∈ nested, t.kind = .line ∧ t.IsSound) (hone : p.CarriesLine → nested = []) :
    line.IsSound := by
  refine isSound_iff.2 ⟨⟨?_, fun _ ↦ ?_, fun h ↦ ?_, fun h ↦ ?_, fun _ q rest hq hcarries ↦ ?_⟩, ?_⟩
  · rw [hk, hc]
    change (p.kind.isPayload && (nested.map Token.kind).all (· == .line)) = true
    rw [hpayload, Bool.true_and, List.all_map, List.all_eq_true]
    exact fun t ht ↦ beq_iff_eq.2 (hnested t ht).1
  · rw [he, hk]
    rfl
  · rw [hk] at h
    contradiction
  · rw [hk] at h
    contradiction
  · obtain ⟨rfl, rfl⟩ := List.cons_eq_cons.1 (hc.symm.trans hq)
    exact hone hcarries
  · rw [hc]
    exact List.forall_mem_cons.2 ⟨hp, fun t ht ↦ (hnested t ht).2⟩

theorem kind_extendPayload (p : Token E) (ts : List (Token E)) :
    (extendPayload p ts).kind = p.kind := by
  unfold extendPayload
  split <;> rfl

/-- The tree of a chain is a sound line if the trees under it are. -/
theorem isSound_nest {followers : List (Token E)} (h : RuledChain line followers)
    (hnested : ∀ t ∈ nested, t.kind = .line ∧ t.IsSound) :
    (nest nested line followers).kind = .line ∧ (nest nested line followers).IsSound := by
  induction followers generalizing line with
  | nil =>
    obtain ⟨hk, he, p, hc, hs, hpayload, hinner⟩ := h
    have hchildren : (extend line nested).children = p :: nested := by
      rw [extend, hc]
      rfl
    refine ⟨hk, isSound_line hk he hchildren hs hpayload hnested fun hcarries ↦ ?_⟩
    exact absurd hcarries hinner.not_carriesLine
  | cons next followers ih =>
    obtain ⟨⟨hk, he, p, hc, hs, hpayload, hinner⟩, ⟨q, hq, htakes⟩, hrest⟩ := h
    obtain ⟨rfl, -⟩ := List.cons_eq_cons.1 (hc.symm.trans hq)
    obtain ⟨hnext, hsound⟩ := ih hrest
    rw [nest, close_payload hc]
    refine ⟨hk, isSound_line hk he rfl (htakes _ hnext hsound) ?_ (List.forall_mem_nil _) fun _ ↦ rfl⟩
    rwa [kind_extendPayload]

end Nest

end Token

/-- The outline is made of chains of ruled lines, and its open lines are the last of chains. -/
structure Outline.Ruled (cs : List (Chain E)) (o : Outline E) : Prop where
  entries : o.entries.toList = Chain.entries 1 cs
  placed : Chain.Placed 1 cs
  ruled : ∀ c ∈ cs, RuledChain c.line c.followers
  openLines : ∀ id ∈ o.openLines, id ∈ Chain.lasts 1 cs

namespace Outline.Ruled

variable {cs : List (Chain E)} {o o' : Outline E} {level id owner : Nat} {line : Token E}

theorem empty (maxDepth : Nat) : Ruled [] (Outline.empty maxDepth : Outline E) :=
  ⟨rfl, trivial, List.forall_mem_nil _, List.forall_mem_nil _⟩

theorem size (h : Ruled cs o) : o.entries.size = (Chain.entries 1 cs).length := by
  rw [← h.entries, Array.length_toList]

theorem parentAt (h : Ruled cs o) (level : Nat) :
    o.parentAt level < 1 ∨ o.parentAt level ∈ Chain.lasts 1 cs := by
  cases level with
  | zero => exact .inl Nat.one_pos
  | succ level =>
    rw [Outline.parentAt, List.getD_eq_getElem?_getD]
    cases hx : o.openLines[level]? with
    | none => exact .inl Nat.one_pos
    | some id => exact .inr (h.openLines id (List.mem_of_getElem? hx))

/-- One more chain, at a level. Its last line is the innermost open one. -/
theorem follow (h : Ruled cs o) (ho : o.openLine level line = .ok (o', id))
    {lines : List (Token E)} (hlines : RuledChain line lines) : ∃ cs' : List (Chain E),
      Ruled cs' (o'.follow id lines).1 ∧ (o'.follow id lines).2 ∈ Chain.lasts 1 cs' := by
  obtain ⟨hentries, hopen, -⟩ := follow_openLine ho lines
  obtain ⟨-, hid, rfl⟩ := openLine_eq_ok ho
  have hlasts := Chain.lasts_concat 1 cs ⟨o.parentAt level, line, lines⟩
  rw [← h.size, Nat.add_comm 1] at hlasts
  refine ⟨cs ++ [⟨o.parentAt level, line, lines⟩], ⟨?_, h.placed.concat (h.parentAt level), ?_, ?_⟩, ?_⟩
  · rw [hentries, h.entries, Chain.entries_concat, h.size, Nat.add_comm 1]
  · exact List.forall_mem_append.2 ⟨h.ruled, List.forall_mem_singleton.2 hlines⟩
  · rw [hopen, hlasts, List.forall_mem_append, List.forall_mem_singleton]
    refine ⟨fun q hq ↦ List.mem_append_left _ (h.openLines q (List.mem_of_mem_take hq)), ?_⟩
    exact List.mem_append_right _ (List.mem_singleton_self _)
  · rw [snd_follow (by rw [hid]; exact (size_add ..).symm), hid, hlasts]
    exact List.mem_append_right _ (List.mem_singleton_self _)

/-- One more line, under the last line of a chain. -/
theorem append (h : Ruled cs o) (howner : owner ∈ Chain.lasts 1 cs) (hline : IsRuled line) :
    ∃ cs' : List (Chain E), Ruled cs' (o.append owner line).1 ∧ owner ∈ Chain.lasts 1 cs' := by
  have hlasts : ∀ q ∈ Chain.lasts 1 cs, q ∈ Chain.lasts 1 (cs ++ [⟨owner, line, []⟩]) := by
    rintro q hq
    rw [Chain.lasts_concat]
    exact List.mem_append_left _ hq
  refine ⟨cs ++ [⟨owner, line, []⟩], ⟨?_, h.placed.concat (.inr howner), ?_, ?_⟩, hlasts _ howner⟩
  · rw [Chain.entries_concat, ← h.entries]
    exact Array.toList_push ..
  · exact List.forall_mem_append.2 ⟨h.ruled, List.forall_mem_singleton.2 hline⟩
  · exact fun q hq ↦ hlasts q (h.openLines q hq)

/-- The tree of an outline of ruled lines keeps the rules. -/
theorem finish (h : Ruled cs o) : o.finish.IsSound := by
  obtain ⟨ts, htrees, hroot⟩ := finish_of_chains h.placed h.entries
  have hall : ∀ t ∈ ts, t.kind = .line ∧ t.IsSound :=
    Chain.forall_trees h.placed htrees fun c hc nested hnested ↦ isSound_nest (h.ruled c hc) hnested
  have hchildren : ∀ t ∈ o.finish.children, t.kind = .line ∧ t.IsSound := by
    rw [hroot]
    exact fun t ht ↦ hall t (mem_of_mem_under ht)
  refine isSound_iff.2 ⟨.of_allows ?_ (fun _ ↦ rfl) rfl rfl (by rintro ⟨⟩), fun t ht ↦ (hchildren t ht).2⟩
  change (o.finish.children.map Token.kind).all (· == .line) = true
  rw [List.all_map, List.all_eq_true]
  exact fun t ht ↦ beq_iff_eq.2 (hchildren t ht).1

end Outline.Ruled

namespace Page

variable {page : Page E} {o o' : Outline E} {owner id : LineId} {level n : Nat} {s t : ReadState σ}
variable {tail : LineTail}

/-- The lines that follow a line make a chain with it. -/
theorem followers_ruled (h : followers g level n o owner s = .ok (o', id, tail) t) :
    ∃ lines, (o', id) = o.follow owner lines ∧
      ∀ line : Token E, IsRuled line → Takes line → RuledChain line lines := by
  induction n generalizing o owner s with
  | zero =>
    cases hend : s.cursor.skipSpacing.atLineEnd with
    | true =>
      rw [followers_of_atLineEnd hend] at h
      cases h
      exact ⟨[], rfl, fun _ hline _ ↦ hline⟩
    | false => exact absurd h (followers_zero_ne_ok hend)
  | succ n ih =>
    cases hend : s.cursor.skipSpacing.atLineEnd with
    | true =>
      rw [followers_of_atLineEnd hend] at h
      cases h
      exact ⟨[], rfl, fun _ hline _ ↦ hline⟩
    | false =>
      rw [followers_succ hend, bind_eq_ok] at h
      obtain ⟨⟨next, tail'⟩, r, hnext, h⟩ := h
      obtain ⟨⟨⟩, r', -, hrest⟩ := bind_eq_ok.1 h
      obtain ⟨hruled, htakes⟩ := Line.markup_ruled level _ _ _ hnext
      dsimp only at hrest
      split at hrest
      · rename_i htail
        obtain ⟨lines, hfollow, hlines⟩ := ih hrest
        exact ⟨next :: lines, hfollow, fun _ hline h ↦ ⟨hline, h, hlines next hruled (htakes htail)⟩⟩
      · cases hrest
        exact ⟨[next], rfl, fun _ hline h ↦ ⟨hline, h, hruled⟩⟩

/-- A line and those that follow it make one more chain. -/
theorem chain_ruled {cs : List (Chain E)} (h : o.Ruled cs) :
    (chain g level o).Makes fun r ↦ ∃ cs', r.1.Ruled cs' ∧ r.2.1 ∈ Chain.lasts 1 cs' := by
  rintro s ⟨o', id, tail'⟩ t hchain
  obtain ⟨line, tail, r, p, owner, hline, ho, hrest⟩ := chain_of_ok hchain
  obtain ⟨hruled, htakes⟩ := Line.markup_ruled level _ _ _ hline
  split at hrest
  · rename_i htail
    obtain ⟨lines, hfollow, hlines⟩ := followers_ruled hrest
    obtain ⟨rfl, rfl⟩ := Prod.mk.injEq .. |>.mp hfollow
    exact h.follow ho (hlines line hruled (htakes htail))
  · cases hrest
    exact h.follow ho (show RuledChain line [] from hruled)

/-- The outline is made of chains of ruled lines, and the text below is under the last of one. -/
def Ruled (page : Page E) : Prop :=
  ∃ cs, page.outline.Ruled cs ∧ ∀ block ∈ page.verbatim, block.owner ∈ Chain.lasts 1 cs

theorem markupLine_ruled {cs : List (Chain E)} (h : o.Ruled cs) (start : Cursor)
    (run : List Char) : (markupLine g o start run).Makes Ruled := by
  refine .after fun level ↦ ?_
  dsimp only
  split
  · exact .failAt _ _
  · refine .after fun _ ↦ .bind (chain_ruled h) fun r hr ↦ .after fun _ ↦ .after fun c ↦ .after fun _ ↦ ?_
    obtain ⟨cs', hcs, hid⟩ := hr
    split
    · refine .pure ⟨cs', hcs, ?_⟩
      rintro _ ⟨⟩
      exact hid
    · refine .pure ⟨cs', hcs, ?_⟩
      rintro _ ⟨⟩

theorem textLine_ruled {cs : List (Chain E)} (h : o.Ruled cs) {block : Verbatim}
    (howner : block.owner ∈ Chain.lasts 1 cs) : (textLine g o block).Makes Ruled := by
  refine .bind (Line.verbatim_ruled _) fun line hline ↦ .after fun c ↦ .after fun _ ↦ .after fun _ ↦ ?_
  obtain ⟨cs', hcs, howner'⟩ := h.append howner hline
  refine .pure ⟨cs', hcs, ?_⟩
  rintro _ ⟨⟩
  exact howner'

/-- The text below a line is text of that line. -/
theorem margin_makes (verbatim : Option Verbatim) (run : List Char) :
    (margin? verbatim run : Reader σ _).Makes fun m ↦ ∀ x ∈ m, verbatim = some x.1 := by
  cases verbatim with
  | none =>
    refine .pure ?_
    rintro _ ⟨⟩
  | some block =>
    refine .after fun s ↦ .after fun _ ↦ .pure fun x hx ↦ ?_
    obtain ⟨margin, -, rfl⟩ := Option.map_eq_some_iff.1 hx
    rfl

/-- A line of the template keeps the outline ruled. -/
theorem line_ruled (h : page.Ruled) : (line g page).Makes Ruled := by
  obtain ⟨cs, hcs, hblock⟩ := h
  refine .after fun start ↦ .ite (.after fun _ ↦ .pure ⟨cs, hcs, hblock⟩) ?_
  refine .bind (margin_makes page.verbatim _) fun m hm ↦ ?_
  cases m with
  | none => exact markupLine_ruled hcs _ _
  | some x => exact .after fun c ↦ .after fun _ ↦ textLine_ruled hcs (hblock x.1 (hm x rfl))

/-- And so do all lines up to the end of the template. -/
theorem lines_ruled (n : Nat) (h : page.Ruled) : (lines g n page).Makes Ruled := by
  induction n generalizing page with
  | zero => exact .throw _
  | succ n ih => exact .after fun c ↦ .ite (.pure h) (.bind (line_ruled h) fun _ hnext ↦ ih hnext)

end Page

variable {parser : ExpressionParser σ E} {maxDepth : Nat} {source : List Char} {s : σ}
variable {root : Token E}

theorem readTemplate_ruled {t : ReadState σ}
    (h : readTemplate parser maxDepth source s = .ok root t) : ∃ page : Page E,
      page.Ruled ∧ root = page.outline.finish := by
  obtain ⟨page, u, hlines, hfinish⟩ := bind_eq_ok.1 h
  have hempty : (Page.empty maxDepth : Page E).Ruled := by
    refine ⟨[], .empty maxDepth, ?_⟩
    rintro _ ⟨⟩
  cases hfinish
  exact ⟨page, Page.lines_ruled _ hempty _ _ _ hlines, rfl⟩

/-- Every tree that a template is read into is a root below which all tokens keep the rules of the
grammar. -/
theorem lex_keepsRules (h : lex parser maxDepth source s = .ok root) :
    root.kind = .root ∧ ∀ t ∈ root.preorder, t.KeepsRules := by
  unfold lex at h
  split at h
  · rename_i root' t hrun
    cases h
    obtain ⟨page, ⟨cs, hcs, -⟩, rfl⟩ := readTemplate_ruled hrun
    exact ⟨rfl, hcs.finish⟩
  · contradiction

/-- The line that follows the link stands under the link, and the text below under that line. -/
theorem lex_keepsRules_followed :
    ∃ root, lex loose 32 "a(x=1): b
  | #[i c]".toList () = .ok root ∧
      root.preorder.map kind =
        [.root, .line, .lineData, .tag, .tagAttrList, .attrPairEscaped, .line, .lineData, .tag,
          .line, .linePlainText, .lineData, .tag, .linePlainText, .plainText] ∧
      ∀ t ∈ root.preorder, t.KeepsRules := by
  have h : ∃ root, lex loose 32 "a(x=1): b
  | #[i c]".toList () = .ok root ∧
      root.preorder.map kind =
        [.root, .line, .lineData, .tag, .tagAttrList, .attrPairEscaped, .line, .lineData, .tag,
          .line, .linePlainText, .lineData, .tag, .linePlainText, .plainText] := ⟨_, by cbv, by cbv⟩
  obtain ⟨root, h, hkinds⟩ := h
  exact ⟨root, h, hkinds, (lex_keepsRules h).2⟩

end Pug

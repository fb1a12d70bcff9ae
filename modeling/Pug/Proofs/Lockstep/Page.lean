import Pug.Proofs.Layout.Onto
import Pug.Proofs.Layout.Steps
import Pug.Proofs.Lockstep.Line

/-!
# Templates in lockstep

Two runs make corresponding outlines line by line, the second perhaps behind lines that were read
before. Where the first run ends, the second has passed the same lines.

The first run may be *lost* for the comparison: it accepts the definition of a mixin that the second
rejects, it learns a unit of indentation that the second does not, or it ends with a block of code that
the second may go on with. Once lost it remains so.
-/

namespace Pug

open Text Token Reader

variable {σ E : Type}

/-- A line that makes the lines below it text, behind `k` other lines. -/
def Verbatim.behind (k : Nat) (block : Verbatim) : Verbatim :=
  { block with owner := Outline.behind k block.owner }

namespace Link

variable {σ₁ σ₂ E₁ E₂ : Type} {L : Link σ₁ σ₂ E₁ E₂} {g₁ : Setup σ₁ E₁} {g₂ : Setup σ₂ E₂}
variable {c d : Cursor} {s : ReadState σ₁} {u : ReadState σ₂} {before : Array (Outline.Entry E₂)}

/-- An outline holds the definition of a mixin that only the second run rejects. -/
def Holds (L : Link σ₁ σ₂ E₁ E₂) (o : Outline E₁) : Prop :=
  ∃ a ∈ o.tokens, L.Barred a

theorem Holds.mono {o o' : Outline E₁} (h : L.Holds o) (ho : o.tokens <+: o'.tokens) :
    L.Holds o' := by
  obtain ⟨a, ha, hbarred⟩ := h
  exact ⟨a, ho.subset ha, hbarred⟩

/-- The last line of an outline says a block of code, with which the second run may go on. -/
def Leaves (L : Link σ₁ σ₂ E₁ E₂) (o : Outline E₁) (t : ReadState σ₁) : Prop :=
  L.Severed t ∧ ∃ line ∈ o.tokens.getLast?, line.SaysCode

/-- The first run is lost for the comparison. -/
def Lost (L : Link σ₁ σ₂ E₁ E₂) (o : Outline E₁) (t : ReadState σ₁) : Prop :=
  L.Holds o ∨ L.Parted t ∨ L.Leaves o t

theorem Lost.lenient {o : Outline E₁} {t : ReadState σ₁} (h : L.Lost o t) : L.Lenient := by
  rcases h with ⟨_, _, hbarred⟩ | hparted | ⟨hsevered, -⟩
  · exact hbarred.lenient
  · exact hparted.lenient
  · exact hsevered.lenient

/-- A run remains lost while it moves on. -/
theorem Lost.later {o : Outline E₁} {t t' : ReadState σ₁} (h : L.Lost o t) (hu : t'.unit = t.unit)
    (hr : t'.cursor.rest <:+ t.cursor.rest) : L.Lost o t' := by
  refine h.imp_right (.imp ?_ fun ⟨hsevered, hline⟩ ↦ ⟨hsevered.later hr, hline⟩)
  rintro ⟨unit, hunit, hparts⟩
  exact ⟨unit, hu ▸ hunit, hparts⟩

/-- What both runs have read of a chain: an outline, its last line, and what that asks for. -/
def Chains (L : Link σ₁ σ₂ E₁ E₂) (before : Array (Outline.Entry E₂))
    (r : Outline E₁ × LineId × LineTail) (r' : Outline E₂ × LineId × LineTail) : Prop :=
  r' = (r.1.onto L.toRecast before, Outline.behind before.size r.2.1, r.2.2)

/-- A page behind other lines. -/
def onto (L : Link σ₁ σ₂ E₁ E₂) (before : Array (Outline.Entry E₂)) (p : Page E₁) : Page E₂ :=
  ⟨p.outline.onto L.toRecast before, p.verbatim.map (Verbatim.behind before.size)⟩

/-- Both runs have passed the line on which the body ends. -/
def Past (L : Link σ₁ σ₂ E₁ E₂) (c d : Cursor) : Prop :=
  L.ends₂ ≠ [] ∧ c.rest = [] ∧ d = (⟨L.offset (byteLength L.body), L.ends₂⟩ : Cursor).nextLine

/-- Corresponding states of the two runs between lines. -/
structure Between (L : Link σ₁ σ₂ E₁ E₂) (s : ReadState σ₁) (u : ReadState σ₂) : Prop where
  places : L.Places s.cursor u.cursor ∨ L.Past s.cursor u.cursor
  parsers : L.parsers s.parser u.parser
  units : L.units s.unit u.unit

theorem States.between (h : L.States s u) : L.Between s u :=
  ⟨.inl h.places, h.parsers, h.units⟩

/-- No run passes the end of a template that ends with the body. -/
theorem Between.states (h : L.Between s u) (hends : L.ends₂ = []) : L.States s u :=
  ⟨h.places.resolve_right fun hpast ↦ hpast.1 hends, h.parsers, h.units⟩

section

variable {lost : Unit → ReadState σ₁ → Prop} {o : Outline E₁}

theorem expectLine_rel (o : Outline E₁) (id : LineId) :
    L.RelUnless lost Eq (Page.expectLine o id)
      (Page.expectLine (o.onto L.toRecast before) (Outline.behind before.size id)) := by
  unfold Page.expectLine
  rw [Outline.has_onto]
  exact .ite Iff.rfl (fun _ ↦ .pure rfl) fun _ ↦ .throw rfl nofun

/-- Where the first run is lost on a line, it is lost for the rest of the chain. -/
theorem Strays.followers {front : List Char} {line : Token E₁} {tail : LineTail} {t w : ReadState σ₁}
    {level levels : Nat} {r : Outline E₁ × LineId × LineTail} {o' : Outline E₁} {id : LineId}
    (h : L.Strays SaysCode front (line, tail) t) (ho : o'.tokens = o.tokens ++ [line])
    (hr : (if tail = .follow then Page.followers g₁ level levels o' id
      else pure (o', id, tail) : Reader σ₁ (Outline E₁ × LineId × LineTail)) t = .ok r w) :
    L.Lost r.1 w := by
  rcases h with (hbarred | ⟨hparted, hplain⟩) | ⟨-, hcut⟩
  · have hholds : L.Holds o' := ⟨line, by rw [ho]; simp, hbarred⟩
    split at hr
    · exact .inl (hholds.mono (Page.followers_tokens hr))
    · cases hr
      exact .inl hholds
  · rw [show tail = .plain from hplain, if_neg nofun] at hr
    cases hr
    exact .inr (.inl hparted)
  · rw [show tail = .plain from hcut.plain, if_neg nofun] at hr
    cases hr
    exact .inr (.inr ⟨hcut.severed, line, by rw [ho]; exact List.getLast?_concat, hcut.code⟩)

theorem followers_rel (hg : L.Setups g₁ g₂) (hL : L.Closed) (level levels : Nat) (o : Outline E₁)
    (owner : LineId) :
    L.RelUnless (fun r t ↦ L.Lost r.1 t) (L.Chains before)
      (Page.followers g₁ level levels o owner)
      (Page.followers g₂ level levels (o.onto L.toRecast before)
        (Outline.behind before.size owner)) := by
  induction levels generalizing o owner with
  | zero =>
    unfold Page.followers
    refine skipSpacing_rel.bind fun _ _ _ ↦ here_rel.bind fun c d h ↦ ?_
    refine .ite (by rw [h.atLineEnd]) (fun _ ↦ .pure rfl) fun _ ↦ ?_
    rw [hg.maxDepth]
    exact failWithHelp_rel h _ _
  | succ levels ih =>
    unfold Page.followers
    refine skipSpacing_rel.bind fun _ _ _ ↦ here_rel.bind fun c d h ↦ ?_
    refine .ite (by rw [h.atLineEnd]) (fun _ ↦ .pure rfl) fun _ ↦ ?_
    intro s u hs
    refine (markup_runs hg hs (.inl ⟨hL, rfl⟩)).bind_lost ?_ ?_
    · rintro ⟨line, tail⟩ t ⟨line', tail'⟩ v ⟨⟨hline, htail⟩, ht⟩
      dsimp only at hline htail
      subst hline htail
      refine (expectLine_rel o owner).bind (fun _ _ _ ↦ ?_) t v ht
      rw [Outline.expand_onto]
      exact .ite Iff.rfl (fun _ ↦ ih _ _) fun _ ↦ .pure rfl
    · rintro ⟨line, tail⟩ t hlost
      refine hlost.lenient.ensures fun r w hr ↦ ?_
      obtain ⟨⟨⟩, t', hexpect, hrest⟩ := bind_eq_ok.1 hr
      obtain rfl := Page.expectLine_of_ok hexpect
      exact hlost.followers (Outline.tokens_expand o owner line) hrest

theorem chain_rel (before : Array (Outline.Entry E₂)) (hg : L.Setups g₁ g₂) (hL : L.Closed)
    (level : Nat) (o : Outline E₁) :
    L.RelUnless (fun r t ↦ L.Lost r.1 t) (L.Chains before) (Page.chain g₁ level o)
      (Page.chain g₂ level (o.onto L.toRecast before)) := by
  intro s u hs
  refine RunsUnless.here ((markup_runs hg hs (.inl ⟨hL, rfl⟩)).bind_lost ?_ ?_)
  · rintro ⟨line, tail⟩ t ⟨line', tail'⟩ v ⟨⟨hline, htail⟩, ht⟩
    dsimp only at hline htail
    subst hline htail
    dsimp only
    rw [Outline.parentAt_onto]
    refine (expectLine_rel o _).bind (fun _ _ _ ↦ ?_) t v ht
    rw [Outline.openLine_onto, hg.maxDepth]
    cases o.openLine level line with
    | error problem => exact failAt_rel hs.places problem
    | ok opened => exact .ite Iff.rfl (fun _ ↦ followers_rel hg hL level _ _ _) fun _ ↦ .pure rfl
  · rintro ⟨line, tail⟩ t hlost
    refine hlost.lenient.ensures fun r w hr ↦ ?_
    obtain ⟨⟨⟩, t', hexpect, hrest⟩ := bind_eq_ok.1 hr
    obtain rfl := Page.expectLine_of_ok hexpect
    cases ho : o.openLine level line with
    | error problem =>
      rw [ho] at hrest
      contradiction
    | ok opened =>
      rw [ho] at hrest
      exact hlost.followers (Outline.tokens_openLine ho) hrest

end

end Link

namespace Page

open Link

/-- From one state to another lines are added, and a unit that is known stays known. -/
structure Keeps (o : Outline E) (known : Option IndentUnit) (o' : Outline E) (t : ReadState σ) :
    Prop where
  tokens : o.tokens <+: o'.tokens
  unit : ∀ unit, known = some unit → t.unit = some unit

variable {g : Setup σ E} {level n : Nat} {o : Outline E} {s t : ReadState σ}
variable {Known : Option IndentUnit → Prop}

theorem not_lost_beside {source : List Char} : ¬(beside σ E source Known).Lost o t := by
  rintro (⟨_, _, _, _, _, _, _, hrejected⟩ | ⟨_, _, hparts⟩ | ⟨hsevered, -⟩)
  · exact hrejected
  · exact hparts
  · exact not_severed_beside hsevered

theorem chain_tokens {r : Outline E × LineId × LineTail} (h : chain g level o s = .ok r t) :
    o.tokens <+: r.1.tokens := by
  obtain ⟨line, tail, t', o', id, -, ho, hrest⟩ := chain_of_ok h
  have hadd : o.tokens <+: o'.tokens := ⟨[line], (Outline.tokens_openLine ho).symm⟩
  split at hrest
  · exact hadd.trans (followers_tokens hrest)
  · cases hrest
    exact hadd

/-- What is known of the unit stays known over a chain. -/
theorem chain_known {r : Outline E × LineId × LineTail} (hk : Indent.Learns Known)
    (hs : Known s.unit) (h : chain g level o s = .ok r t) : Known t.unit := by
  refine known_of_beside (E := E) (fun source hstates ↦ ?_) hs h
  have hchain := chain_rel #[] (setups_beside g) (closed_beside hk) level o s s hstates
  exact ⟨_, _, hchain.mono_lost (fun _ _ ↦ not_lost_beside) fun _ _ _ _ ⟨_, ht⟩ ↦ ht.units.2⟩

/-- What is known of the unit stays known over a line of text. -/
theorem verbatim_known (Known : Option IndentUnit → Prop) {interpolate : Bool} {line : Token E}
    (hs : Known s.unit) (h : Line.verbatim g interpolate s = .ok line t) : Known t.unit := by
  refine known_of_beside (E := E) (fun source hstates ↦ ?_) hs h
  exact ⟨_, _, (verbatim_rel (setups_beside g) _ s s hstates).mono fun _ _ _ _ ⟨_, ht⟩ ↦ ht.units.2⟩

theorem chain_keeps {r : Outline E × LineId × LineTail} (h : chain g level o s = .ok r t) :
    Keeps o s.unit r.1 t where
  tokens := chain_tokens h
  unit unit hs := chain_known (Indent.learns_known unit) hs h

theorem markupLine_keeps {c : Cursor} {run : List Char} {p : Page E}
    (h : markupLine g o c run s = .ok p t) : Keeps o (Indent.learn s.unit run) p.outline t := by
  obtain ⟨level, t', hlevel, -⟩ := bind_eq_ok.1 h
  have hunit := Indent.level_snd s.unit run
  cases hrun : Indent.level s.unit run with
  | mk indent unit =>
    rw [hrun] at hunit
    have hindent := (level_of_ok hlevel).1
    rw [hrun] at hindent
    cases hindent
    rw [markupLine_eq_content hrun (checkLevel_of_markupLine hrun h)] at h
    obtain ⟨id, tail, r, u, hchain, hend, rfl⟩ := content_of_ok h
    have hkeeps := chain_keeps hchain
    rw [(endRun_of_ok hend).1, ← hunit]
    exact ⟨hkeeps.tokens, hkeeps.unit⟩

theorem textLine_keeps {block : Verbatim} {p : Page E} (h : textLine g o block s = .ok p t) :
    Keeps o s.unit p.outline t := by
  obtain ⟨line, t', hline, h⟩ := bind_eq_ok.1 h
  obtain ⟨c', m, hhere, h⟩ := bind_eq_ok.1 h
  cases hhere
  obtain ⟨⟨⟩, m, hmove, h⟩ := bind_eq_ok.1 h
  cases hmove
  obtain ⟨⟨⟩, m, hexpect, h⟩ := bind_eq_ok.1 h
  obtain rfl := expectLine_of_ok hexpect
  cases h
  refine ⟨⟨[line], (Outline.tokens_add o _ line).symm⟩, fun unit hs ↦ ?_⟩
  change t'.unit = some unit
  exact verbatim_known (· = some unit) hs hline

/-- The unit that is known behind the spacing in front, unless that is all there is on the line. -/
def learned (s : ReadState σ) : Option IndentUnit :=
  if s.cursor.skipSpacing.atLineEnd then s.unit
  else Indent.learn s.unit (s.cursor.rest.takeWhile isSpacing)

theorem line_keeps {p q : Page E} (h : line g p s = .ok q t) :
    Keeps p.outline (learned s) q.outline t := by
  obtain ⟨o, verbatim⟩ := p
  unfold learned
  cases hc : s.cursor.skipSpacing.atLineEnd with
  | true =>
    rw [line_of_blank hc] at h
    cases h
    exact ⟨List.prefix_rfl, fun _ ↦ id⟩
  | false =>
    rw [line_of_not_blank hc] at h
    obtain ⟨found, t', hmargin, h⟩ := bind_eq_ok.1 h
    rcases margin_of_ok hmargin with ⟨-, rfl, rfl⟩ | ⟨block, -, hfound, ht⟩
    · exact markupLine_keeps h
    · rw [Indent.marginOf_snd] at ht
      subst ht
      cases found with
      | none =>
        have hkeeps := markupLine_keeps h
        rwa [Indent.learn_learn] at hkeeps
      | some found =>
        obtain ⟨d, m, hplace, h⟩ := bind_eq_ok.1 h
        obtain rfl := placeAt_of_ok hplace
        obtain ⟨⟨⟩, m', hmove, h⟩ := bind_eq_ok.1 h
        cases hmove
        exact textLine_keeps h

/-- A line break adds no line. -/
theorem lines_of_break {p : Page E} (hb : ∀ x ∈ s.cursor.rest, isBreak x = true)
    (hend : s.cursor.rest ≠ []) (n : Nat) :
    ∃ t, lines g (n + 1) p s = lines g n p t ∧ t.unit = s.unit ∧
      t.cursor.rest <:+ s.cursor.rest := by
  have hspacing : s.cursor.skipSpacing.rest <:+ s.cursor.rest :=
    ⟨_, s.cursor.leads_skipSpacing.1.symm⟩
  have hblank : s.cursor.skipSpacing.atLineEnd = true :=
    Cursor.atLineEnd_of_breaks fun x hx ↦ hb x (hspacing.subset hx)
  refine ⟨{ s with cursor := s.cursor.skipSpacing.nextLine }, ?_, rfl,
    .trans ⟨_, s.cursor.skipSpacing.leads_nextLine.1.symm⟩ hspacing⟩
  rw [lines_before_end hend, bind_of_ok (line_of_blank hblank)]

/-- Where nothing but line breaks is left, no line is added. -/
theorem lines_of_breaks {p q : Page E} (hb : ∀ x ∈ s.cursor.rest, isBreak x = true)
    (h : lines g n p s = .ok q t) :
    q = p ∧ t.unit = s.unit ∧ t.cursor.rest <:+ s.cursor.rest := by
  induction n generalizing s with
  | zero => contradiction
  | succ n ih =>
    by_cases hend : s.cursor.rest = []
    · rw [lines_at_end hend] at h
      cases h
      exact ⟨rfl, rfl, List.suffix_rfl⟩
    · obtain ⟨m, hm, hu, hnext⟩ := lines_of_break (g := g) (p := p) hb hend n
      rw [hm] at h
      obtain ⟨hq, hunit, hrest⟩ := ih (fun x hx ↦ hb x (hnext.subset hx)) h
      exact ⟨hq, hunit.trans hu, hrest.trans hnext⟩

/-- What is not read in time is line breaks. -/
theorem lines_of_breaks_of_error {p : Page E} {f : Failure}
    (hb : ∀ x ∈ s.cursor.rest, isBreak x = true) (h : lines g n p s = .error f t) :
    f = .stalled := by
  induction n generalizing s with
  | zero =>
    cases h
    rfl
  | succ n ih =>
    by_cases hend : s.cursor.rest = []
    · rw [lines_at_end hend] at h
      contradiction
    · obtain ⟨m, hm, -, hnext⟩ := lines_of_break (g := g) (p := p) hb hend n
      rw [hm] at h
      exact ih (fun x hx ↦ hb x (hnext.subset hx)) h

theorem lines_keeps {p q : Page E} (h : lines g n p s = .ok q t) :
    Keeps p.outline s.unit q.outline t := by
  induction n generalizing p s with
  | zero => contradiction
  | succ n ih =>
    by_cases hend : s.cursor.rest = []
    · rw [lines_at_end hend] at h
      cases h
      exact ⟨List.prefix_rfl, fun _ ↦ id⟩
    · rw [lines_before_end hend] at h
      obtain ⟨p', t', hline, h⟩ := bind_eq_ok.1 h
      have hfirst := line_keeps hline
      have hrest := ih h
      refine ⟨hfirst.tokens.trans hrest.tokens, fun unit hs ↦ hrest.unit unit (hfirst.unit unit ?_)⟩
      rw [learned, hs, Indent.learn_known, ite_self]

end Page

namespace Link

variable {σ₁ σ₂ E₁ E₂ : Type} {L : Link σ₁ σ₂ E₁ E₂} {g₁ : Setup σ₁ E₁} {g₂ : Setup σ₂ E₂}
variable {c d : Cursor} {s : ReadState σ₁} {u : ReadState σ₂} {before : Array (Outline.Entry E₂)}
variable {run rest : List Char} {o : Outline E₁} {p : Page E₁}

theorem Lost.of_keeps {o' : Outline E₁} {t : ReadState σ₁} {known : Option IndentUnit}
    (h : L.Holds o ∨ ∃ unit ∈ known, L.Parts unit) (hk : Page.Keeps o known o' t) : L.Lost o' t := by
  rcases h with h | ⟨unit, hunit, hparts⟩
  · exact .inl (h.mono hk.tokens)
  · exact .inr (.inl ⟨unit, hk.unit unit hunit, hparts⟩)

/-- A run that is lost on a line is lost at the end of the template. -/
theorem Lost.lines {n : Nat} {q : Page E₁} {t : ReadState σ₁} (h : L.Lost p.outline s)
    (hr : Page.lines g₁ n p s = .ok q t) : L.Lost q.outline t := by
  rcases h with hholds | hparted | ⟨hsevered, hline⟩
  · exact .of_keeps (.inl hholds) (Page.lines_keeps hr)
  · exact .of_keeps (.inr hparted) (Page.lines_keeps hr)
  · obtain ⟨rfl, -, hrest⟩ := Page.lines_of_breaks hsevered.breaks hr
    exact .inr (.inr ⟨hsevered.later hrest, hline⟩)

/-- Nothing more is learned from the same run. -/
theorem Agree.learn {a b : Option IndentUnit} (h : L.Agree run a b) :
    L.Agree run (Indent.learn a run) (Indent.learn b run) := by
  have hlearn := fun known : Option IndentUnit ↦ Indent.learn_learn known run
  refine ⟨?_, ?_, fun n ↦ ?_⟩
  · rw [hlearn, hlearn]
    exact h.units
  · rw [Indent.level_eq (hlearn a), Indent.level_eq (hlearn b), h.level]
  · rw [Indent.marginOf_eq (hlearn a), Indent.marginOf_eq (hlearn b), h.margin]

theorem Places.skip (h : L.Places c d) (hr : c.rest = run ++ rest)
    (hw : ∀ x ∈ run, isBreak x = false) {n : Nat} (hn : n ≤ run.length) :
    L.Places (c.skip n) (d.skip n) := by
  have hlen : (run.take n).length = n := by rw [List.length_take, Nat.min_eq_left hn]
  have hskip : ∀ e : Cursor, e.skip n = e.past (run.take n) := fun e ↦ by rw [Cursor.past, hlen]
  rw [hskip, hskip]
  have hfront : c.rest = run.take n ++ (run.drop n ++ rest) := by
    rw [hr, ← List.append_assoc, List.take_append_drop]
  exact h.past hfront fun x hx ↦ hw x (List.mem_of_mem_take hx)

/-- A misfit stands on the run. -/
theorem index_le_of_level {known : Option IndentUnit} {misfit : Misfit}
    (h : (Indent.level known run).1 = .error misfit) : misfit.index ≤ run.length := by
  unfold Indent.level at h
  split at h
  · contradiction
  · dsimp only at h
    split at h
    · contradiction
    · unfold Indent.units at h
      split at h
      · rename_i index hindex
        cases h
        exact Nat.le_of_lt (List.findIdx?_eq_some_iff_findIdx_eq.1 hindex).1
      · split at h
        · contradiction
        · cases h
          exact Nat.le_refl _

theorem level_runsTo (h : L.Places c d) (hr : c.rest = run ++ rest)
    (hw : ∀ x ∈ run, isBreak x = false) (hs : L.States s u) (ha : L.Agree run s.unit u.unit) :
    L.RunsTo (Page.level c run) s (Page.level d run) u fun n t n' v ↦ n' = n ∧ L.States t v := by
  refine (get_runsTo s u).bind ?_
  rintro a t b v ⟨⟨rfl, rfl⟩, rfl, rfl⟩
  have hindent := ha.level
  have hunits := ha.units
  rw [← Indent.level_snd, ← Indent.level_snd] at hunits
  have hindex : ∀ misfit, (Indent.level t.unit run).1 = .error misfit →
      misfit.index ≤ run.length := fun _ ↦ index_le_of_level
  dsimp only
  cases hlevel : Indent.level t.unit run with
  | mk indent unit =>
    cases hlevel' : Indent.level v.unit run with
    | mk indent' unit' =>
      rw [hlevel] at hindent hunits hindex
      rw [hlevel'] at hindent hunits
      obtain rfl : indent' = indent := hindent
      refine (set_rel ?_).bind (fun _ _ _ ↦ ?_) t v hs
      · exact ⟨hs.places, hs.parsers, hunits⟩
      · cases indent' with
        | ok n => exact .pure rfl
        | error misfit => exact failWithHelp_rel (h.skip hr hw (hindex misfit rfl)) _ _

/-- A margin stands in front of its run. -/
theorem prefix_of_marginOf {known : Option IndentUnit} {n : Nat} {margin : List Char}
    (h : (Indent.marginOf known n run).1 = some margin) : margin <+: run := by
  unfold Indent.marginOf at h
  split at h
  · contradiction
  · dsimp only at h
    split at h
    · rename_i hp
      cases h
      exact List.isPrefixOf_iff_prefix.1 (Bool.and_eq_true_iff.1 hp).2
    · contradiction

theorem margin_runsTo (verbatim : Option Verbatim) (hs : L.States s u)
    (ha : L.Agree run s.unit u.unit) :
    L.RunsTo (Page.margin? verbatim run) s
      (Page.margin? (verbatim.map (Verbatim.behind before.size)) run) u fun found t found' v ↦
        found' = found.map (Prod.map (Verbatim.behind before.size) id) ∧
          (∀ x ∈ found, x.2 <+: run) ∧ L.States t v ∧ L.Agree run t.unit v.unit := by
  cases verbatim with
  | none => exact .inr ⟨none, u, rfl, rfl, nofun, hs, ha⟩
  | some block =>
    refine (get_runsTo s u).bind ?_
    rintro a t b v ⟨⟨rfl, rfl⟩, rfl, rfl⟩
    have hmargin := ha.margin (block.level + 1)
    have hlearn := ha.learn
    rw [← Indent.marginOf_snd t.unit (block.level + 1), ← Indent.marginOf_snd v.unit (block.level + 1)]
      at hlearn
    have hunits := ha.units
    rw [← Indent.marginOf_snd t.unit (block.level + 1), ← Indent.marginOf_snd v.unit (block.level + 1)]
      at hunits
    dsimp only [Option.map_some, Verbatim.behind]
    refine .inr ⟨_, _, rfl, ?_, ?_, ⟨hs.places, hs.parsers, hunits⟩, hlearn⟩
    · rw [hmargin, Option.map_map]
      rfl
    · intro x hx
      obtain ⟨margin, hmargin, rfl⟩ := Option.map_eq_some_iff.1 hx
      exact prefix_of_marginOf hmargin

theorem nextLine_between (hL : L.Closed) (hs : L.States s u) :
    L.Between { s with cursor := s.cursor.nextLine } { u with cursor := u.cursor.nextLine } := by
  refine ⟨?_, hs.parsers, hs.units⟩
  rcases hs.places.lineBreak hL with ⟨hc, hd⟩ | ⟨hw, hd⟩
  · have hstay : ∀ e : Cursor, e.rest = [] → e.nextLine = e := fun e h ↦ by
      rw [Cursor.nextLine, Cursor.lineBreak, h]
      exact Cursor.skip_zero e
    dsimp only
    by_cases hnil₂ : L.ends₂ = []
    · -- Both templates end here.
      left
      rw [hstay _ (by rw [hc]; exact hL.ends₂ hnil₂), hstay _ (by rw [hd]; exact hnil₂)]
      exact hs.places
    · right
      refine ⟨hnil₂, ?_, by rw [hd]⟩
      rcases hL.ends₁ with hnil | ⟨e, he⟩
      · rw [hstay _ (by rw [hc]; exact hnil), hc]
        exact hnil
      · have hrest : s.cursor.rest = e.chars ++ [] := by rw [hc, List.append_nil]; exact he
        have hbreak := Cursor.lineBreak_eq hrest fun _ h ↦ by cases h
        rw [Cursor.nextLine, hbreak, Cursor.rest_past_append _ _ _ hrest]
  · left
    dsimp only
    rw [Cursor.nextLine, Cursor.nextLine, hd]
    exact hw.past

theorem moveTo_nextLine_runsTo (hL : L.Closed) (hs : L.States s u) :
    L.RunsTo (moveTo s.cursor.nextLine) s (moveTo u.cursor.nextLine) u
      fun _ t _ v ↦ L.Between t v :=
  .inr ⟨(), _, rfl, nextLine_between hL hs⟩

theorem expectLine_runsTo (h : L.Between s u) (o : Outline E₁) (id : LineId) :
    L.RunsTo (Page.expectLine o id) s
      (Page.expectLine (o.onto L.toRecast before) (Outline.behind before.size id)) u
      fun _ t _ v ↦ L.Between t v := by
  unfold Page.expectLine
  rw [Outline.has_onto]
  split
  · exact .inr ⟨(), u, rfl, h⟩
  · exact .inr ⟨u, rfl, fun hL ↦ h.states hL.ends₂, nofun⟩

theorem textLine_runs (hg : L.Setups g₁ g₂) (hL : L.Closed) (o : Outline E₁) (block : Verbatim)
    (hs : L.States s u) :
    L.RunsTo (Page.textLine g₁ o block) s
      (Page.textLine g₂ (o.onto L.toRecast before) (block.behind before.size)) u
      fun p t q v ↦ q = L.onto before p ∧ L.Between t v := by
  refine RunsUnless.bind (verbatim_rel hg block.interpolate s u hs) fun a t b v ⟨hab, ht⟩ ↦ ?_
  refine RunsUnless.here ((moveTo_nextLine_runsTo hL ht).bind fun _ t _ v ht ↦ ?_)
  refine (expectLine_runsTo ht o _).bind fun _ t _ v ht ↦ .inr ⟨_, v, rfl, ?_, ht⟩
  rw [hab]
  exact congrArg (fun r : Outline E₂ × LineId ↦ (⟨r.1, _⟩ : Page E₂))
    (Outline.append_onto L.toRecast before o block.owner a)

theorem markupLine_runs (hg : L.Setups g₁ g₂) (hL : L.Closed) (o : Outline E₁) (h : L.Places c d)
    (hr : c.rest = run ++ rest) (hw : ∀ x ∈ run, isBreak x = false) (hs : L.States s u)
    (ha : L.Agree run s.unit u.unit) :
    L.RunsUnless (fun p t ↦ L.Lost p.outline t) (Page.markupLine g₁ o c run) s
      (Page.markupLine g₂ (o.onto L.toRecast before) d run) u
      fun p t q v ↦ q = L.onto before p ∧ L.Between t v := by
  refine RunsUnless.bind (level_runsTo h hr hw hs ha) ?_
  rintro _ t level v ⟨rfl, ht⟩
  dsimp only
  rw [Outline.checkLevel_onto]
  cases o.checkLevel level with
  | some problem =>
    have hfail : L.Rel (fun (_ : Page E₁) (_ : Page E₂) ↦ False) (failAt _ problem)
      (failAt _ problem) := failAt_rel (h.past hr hw) problem
    exact (hfail t v ht).mono fun _ _ _ _ h ↦ h.1.elim
  | none =>
    refine (moveTo_runsTo ht (h.past hr hw)).bind fun _ t _ v ⟨ht, _⟩ ↦ ?_
    refine (chain_rel before hg hL level o t v ht).bind_lost ?_ ?_
    · rintro ⟨o', owner, tail⟩ t _ v ⟨rfl, ht⟩
      refine RunsUnless.bind (endRun_rel false t v ht) fun _ t _ v ⟨_, ht⟩ ↦ RunsUnless.here ?_
      refine (moveTo_nextLine_runsTo hL ht).bind fun _ t _ v ht ↦ ?_
      cases tail <;> exact .inr ⟨_, v, rfl, rfl, ht⟩
    · rintro ⟨o', owner, tail⟩ t hlost
      refine hlost.lenient.ensures fun p w hread ↦ ?_
      obtain ⟨⟨⟩, t', hend, hread⟩ := bind_eq_ok.1 hread
      obtain ⟨rfl, -⟩ := endRun_of_ok hend
      have hrest : t.cursor.skipSpacing.nextLine.rest <:+ t.cursor.rest :=
        .trans ⟨_, t.cursor.skipSpacing.leads_nextLine.1.symm⟩ ⟨_, t.cursor.leads_skipSpacing.1.symm⟩
      cases tail <;> cases hread <;> exact hlost.later rfl hrest

/-- One line, or a block of code. -/
theorem line_runs (before : Array (Outline.Entry E₂)) (hg : L.Setups g₁ g₂) (hL : L.Closed)
    (p : Page E₁) (hs : L.States s u) :
    L.RunsUnless (fun p t ↦ L.Lost p.outline t) (Page.line g₁ p) s
      (Page.line g₂ (L.onto before p)) u fun p t q v ↦ q = L.onto before p ∧ L.Between t v := by
  have hcontent := hs.places.skipSpacing
  cases hc : s.cursor.skipSpacing.atLineEnd with
  | true =>
    have hd := hcontent.atLineEnd.trans hc
    unfold RunsUnless
    rw [Page.line_of_blank hc]
    refine .inr ⟨_, _, Page.line_of_blank hd, rfl, ?_⟩
    exact nextLine_between hL (s := { s with cursor := _ }) (u := { u with cursor := _ })
      ⟨hcontent, hs.parsers, hs.units⟩
  | false =>
    have hd := hcontent.atLineEnd.trans hc
    have hrun : u.cursor.rest.takeWhile isSpacing = s.cursor.rest.takeWhile isSpacing :=
      hs.places.ask (q := List.takeWhile isSpacing) fun _ hm ↦ takeWhile_append hm rfl rfl
    have hall : ∀ x ∈ s.cursor.rest.takeWhile isSpacing, isSpacing x = true := fun x hx ↦
      List.mem_takeWhile_imp hx
    rcases hL.learn hs.units hall with ⟨unit, hunit, hparts⟩ | ha
    · -- The first run learns a unit here that the second does not.
      have hlost : L.Lenient := L.excused_of_parts unit hparts
      refine RunsUnless.of_lost (hlost.ensures fun q t hread ↦ ?_)
      have hkeeps := Page.line_keeps hread
      rw [Page.learned, if_neg (by rw [hc]; decide)] at hkeeps
      exact .of_keeps (.inr ⟨unit, hunit, hparts⟩) hkeeps
    · have hfront := s.cursor.leads_skipSpacing.1
      have hspacing : ∀ x ∈ s.cursor.rest.takeWhile isSpacing, isBreak x = false := fun x hx ↦
        isBreak_of_isSpacing (hall x hx)
      obtain ⟨o, verbatim⟩ := p
      refine RunsUnless.congr ?_ (Page.line_of_not_blank hc) (Page.line_of_not_blank hd)
      rw [hrun]
      generalize s.cursor.rest.takeWhile isSpacing = run at *
      refine (margin_runsTo verbatim hs ha).bind ?_
      rintro found t _ v ⟨rfl, hmargin, ht, ha⟩
      cases found with
      | none => exact markupLine_runs hg hL o hs.places hfront hspacing ht ha
      | some found =>
        obtain ⟨block, margin⟩ := found
        obtain ⟨others, ho⟩ := hmargin _ rfl
        -- The text starts behind its margin.
        have htext := hfront.trans (by rw [← ho, List.append_assoc])
        have hunbroken : ∀ x ∈ margin, isBreak x = false := fun x hx ↦
          hspacing x (by rw [← ho]; exact List.mem_append_left _ hx)
        have hword := hs.places.word htext hunbroken
        have hoffset := hword.leads.2
        have hoffset' := hword.leads_write.2
        rw [LineEnding.write_of_unbroken hunbroken] at hoffset'
        have hplace := placeAt_rel hs.places (hs.places.past htext hunbroken)
        rw [hoffset, hoffset'] at hplace
        refine RunsUnless.bind (hplace t v ht) fun _ t _ v ⟨h, ht⟩ ↦ ?_
        refine (moveTo_runsTo ht h).bind fun _ t _ v ⟨ht, _⟩ ↦ ?_
        exact (textLine_runs hg hL o block ht).mono fun _ _ _ _ ↦ id

/-- Where nothing is left of the second template, nothing is left of the first. -/
theorem Places.rest_eq_nil (hL : L.Closed) (h : L.Places c d) (hd : d.rest = []) : c.rest = [] := by
  obtain ⟨before, after, -, rfl, rfl⟩ := h
  replace hd : L.ending.write after ++ L.ends₂ = [] := hd
  rw [List.append_eq_nil_iff, LineEnding.write_eq_nil] at hd
  change after ++ L.ends₁ = []
  rw [hd.1, hL.ends₂ hd.2]
  rfl

/-- Where nothing is left of the first template, the second has what follows the body. -/
theorem Places.rest_eq_ends₂ (h : L.Places c d) (hc : c.rest = []) : d.rest = L.ends₂ := by
  obtain ⟨before, after, -, rfl, rfl⟩ := h
  replace hc : after ++ L.ends₁ = [] := hc
  rw [(List.append_eq_nil_iff.1 hc).1]
  rfl

/-- The lines up to the end of the first template. The second run has then read as many, and goes on
from there. -/
theorem lines_runs (before : Array (Outline.Entry E₂)) (hg : L.Setups g₁ g₂) (hL : L.Closed)
    {n₁ n₂ : Nat} (hle : n₁ ≤ n₂) (heq : L.Excused .stalled ∨ n₁ = n₂) (p : Page E₁)
    (hs : L.Between s u) :
    match Page.lines g₁ n₁ p s with
    | .ok q t => L.Lost q.outline t ∨ ∃ n v, n < n₁ ∧ L.Between t v ∧ t.cursor.rest = [] ∧
        ∀ m, Page.lines g₂ (n + m) (L.onto before p) u = Page.lines g₂ m (L.onto before q) v
    | .error f t => L.Excused f ∨
        ∃ v, Page.lines g₂ n₂ (L.onto before p) u = .error (L.failure f) v ∧ L.Stops f t v := by
  induction n₁ generalizing n₂ p s u with
  | zero =>
    rcases heq with hx | rfl
    · exact .inl hx
    · exact .inr ⟨u, rfl, fun hL ↦ hs.states hL.ends₂, nofun⟩
  | succ n ih =>
    by_cases hend : s.cursor.rest = []
    · rw [Page.lines_at_end hend]
      exact .inr ⟨0, u, Nat.succ_pos n, hs, hend, fun m ↦ by rw [Nat.zero_add]⟩
    · obtain ⟨n₂, rfl⟩ : ∃ k, n₂ = k + 1 := ⟨n₂ - 1, by omega⟩
      have hstates : L.States s u :=
        ⟨hs.places.resolve_right fun hpast ↦ hend hpast.2.1, hs.parsers, hs.units⟩
      have hend' : u.cursor.rest ≠ [] := mt (hstates.places.rest_eq_nil hL) hend
      have hline := line_runs before hg hL p hstates
      unfold RunsUnless at hline
      rw [Page.lines_before_end hend, Page.lines_before_end hend']
      cases hm : Page.line g₁ p s with
      | error f t =>
        rw [hm] at hline
        rw [bind_of_error hm]
        exact hline.imp_right fun ⟨v, hv, ht⟩ ↦ ⟨v, bind_of_error hv, ht⟩
      | ok q t =>
        rw [hm] at hline
        rw [bind_of_ok hm]
        rcases hline with hlost | ⟨_, v, hv, rfl, ht⟩
        · cases hrest : Page.lines g₁ n q t with
          | ok q' t' => exact .inl (hlost.lines hrest)
          | error f t' => exact .inl (hlost.lenient f)
        · have hrest := ih (Nat.le_of_succ_le_succ hle) (heq.imp_right Nat.succ.inj) q ht
          rw [bind_of_ok hv]
          cases hr : Page.lines g₁ n q t with
          | error f t' =>
            rw [hr] at hrest
            exact hrest
          | ok q' t' =>
            rw [hr] at hrest
            refine hrest.imp_right fun ⟨m, w, hm, hw, hend, hlines⟩ ↦
              ⟨m + 1, w, Nat.succ_lt_succ hm, hw, hend, fun k ↦ ?_⟩
            rw [← hlines, Nat.add_right_comm, Page.lines_before_end hend', bind_of_ok hv]

/-- Where the second template ends with the body, both runs end there. -/
theorem lines_ends (before : Array (Outline.Entry E₂)) (hg : L.Setups g₁ g₂) (hL : L.Closed)
    (hends : L.ends₂ = []) {n₁ n₂ : Nat} (hle : n₁ ≤ n₂) (heq : L.Excused .stalled ∨ n₁ = n₂)
    (p : Page E₁) (hs : L.States s u) :
    match Page.lines g₁ n₁ p s with
    | .ok q t => L.Lost q.outline t ∨
        ∃ v, Page.lines g₂ n₂ (L.onto before p) u = .ok (L.onto before q) v ∧ L.States t v
    | .error f t => L.Excused f ∨
        ∃ v, Page.lines g₂ n₂ (L.onto before p) u = .error (L.failure f) v ∧ L.Stops f t v := by
  have hruns := lines_runs before hg hL hle heq p hs.between
  cases hr : Page.lines g₁ n₁ p s with
  | error f t =>
    rw [hr] at hruns
    exact hruns
  | ok q t =>
    rw [hr] at hruns
    refine hruns.imp_right fun ⟨n, v, hn, hv, hend, hlines⟩ ↦ ?_
    have hstates := hv.states hends
    obtain ⟨m, rfl⟩ : ∃ m, n₂ = n + (m + 1) := ⟨n₂ - n - 1, by omega⟩
    rw [hlines, Page.lines_at_end ((hstates.places.rest_eq_ends₂ hend).trans hends)]
    exact ⟨v, rfl, hstates⟩

end Link

end Pug

import Pug.Proofs.Layout.Levels
import Pug.Proofs.Lockstep.Chain
import Pug.Proofs.Template

/-!
# Documents written line by line

Lines that can each be read alone make a document when they are indented by their levels and written
one below the other. The document reads as its lines do: each is the tree that it is alone, moved to
its place, and they lie under one another as their levels say.

A line of the document is read in lockstep with the line alone. There the template ends where here a
line break follows, so the outline of the document gets the chain that the line alone is.
-/

namespace Pug

open Text Token Reader Outline
open ExpressionParser (Call recorded loose)

variable {σ E : Type}

/-- Two runs over a line, the second in a template that goes on below. What it knows of the unit of
indentation stays as it is. -/
def Link.onLine (σ E : Type) (content : List Char) (shift : Nat) (below : List Char)
    (known : Option IndentUnit) : Link σ Unit E E :=
  excusing (.moved shift) content [] ('\n' :: below) Link.isBreak_of_mem_nil rfl
    (.inl rfl) (fun before w _ _ ↦ Recast.offset_moved_add shift before w) (fun _ _ ↦ True)
    (fun _ unit ↦ unit = known) (fun _ ↦ False) fun _ ↦ False

/-- The loose parser takes the same texts on a line wherever the line stands. -/
theorem answers_onLine (content : List Char) (shift : Nat) (below : List Char)
    (known : Option IndentUnit) :
    (Link.onLine (Unit × List (Call Shape)) Shape content shift below known).Answers
      (recorded loose) loose :=
  Link.answers_checked id (fun _ _ _ ↦ rfl) rfl rfl (fun _ _ ↦ trivial) fun _ ↦ trivial

section Alone

variable {parser : ExpressionParser σ E} {maxDepth : Nat} {cs : List Char} {s : σ}
variable {root : Token E}

/-- At the end of a line there is nothing more of a text without line breaks. -/
theorem eq_of_atLineEnd {c : Cursor} (hb : ∀ x ∈ cs, isBreak x = false) (hc : Place cs c)
    (h : c.atLineEnd = true) : c = ⟨byteLength cs, []⟩ := by
  obtain ⟨before, hcs, -⟩ := hc.exists_split
  have hrest : c.rest = [] := by
    cases hr : c.rest with
    | nil => rfl
    | cons x rest =>
      have hx := hb x (by rw [hcs, hr]; simp)
      rw [Cursor.atLineEnd, hr] at h
      simp [hx] at h
  have hoff := hc.offset_add
  rw [hrest, byteLength_nil, Nat.add_zero] at hoff
  cases c
  exact Cursor.mk.injEq .. |>.mpr ⟨hoff, hrest⟩

/-- A chain ends at a place of the template. -/
theorem place_of_chain {o : Outline E} {id : LineId} {tail : LineTail} {t : Recorded σ E}
    (h : Page.chain ⟨recorded parser, maxDepth, cs.length + 1⟩ 0 (.empty maxDepth)
      ⟨.start cs, none, (s, [])⟩ = .ok (o, id, tail) t) : Place cs t.cursor := by
  have hg : Setup.Records ⟨recorded parser, maxDepth, cs.length + 1⟩ parser cs :=
    ⟨rfl, Nat.lt_succ_self _⟩
  have hs : Settled cs (⟨.start cs, none, (s, [])⟩ : Recorded σ E) :=
    ⟨.start cs, [], .nil (Nat.le_refl _)⟩
  have hread := (Page.chain_reads hg hs (.empty cs _ maxDepth) (.start cs)).of_ok h
  exact hread.1.reading.place (.start cs)

/-- A text without line breaks that is not indented is read as one chain. -/
theorem exists_chain_of_lex (hb : ∀ x ∈ cs, isBreak x = false)
    (hf : cs.head?.any isSpacing = false) (h : lex parser maxDepth cs s = .ok root)
    (hroot : root.children ≠ []) : ∃ o id tail t,
      Page.chain ⟨recorded parser, maxDepth, cs.length + 1⟩ 0 (.empty maxDepth)
        ⟨.start cs, none, (s, [])⟩ = .ok (o, id, tail) t ∧
      endRun false t = .ok () { t with cursor := ⟨byteLength cs, []⟩ } ∧ root = o.finish := by
  rw [← lex_recorded] at h
  unfold lex at h
  split at h
  · rename_i root' t' hrun
    cases h
    change (Page.lines ⟨recorded parser, maxDepth, cs.length + 1⟩ (cs.length + 1) (.empty maxDepth) >>=
      fun page ↦ pure page.outline.finish) _ = _ at hrun
    obtain ⟨page, t, hlines, hfinish⟩ := bind_eq_ok.1 hrun
    cases hfinish
    cases cs with
    | nil =>
      rw [Page.lines_at_end rfl] at hlines
      cases hlines
      exact absurd rfl hroot
    | cons x cs =>
      have hx : isSpacing x = false := by simpa using hf
      have hrun : (x :: cs).takeWhile isSpacing = [] := by
        rw [List.takeWhile_cons, if_neg (by rw [hx]; decide)]
      have hskip : (Cursor.start (x :: cs)).skipSpacing = .start (x :: cs) := by
        change (Cursor.start (x :: cs)).past ((x :: cs).takeWhile isSpacing) = _
        rw [hrun]
        exact Cursor.skip_zero _
      have hin : (Cursor.start (x :: cs)).skipSpacing.atLineEnd = false := by
        rw [hskip]
        exact hb x (List.mem_cons_self ..)
      rw [Page.lines_before_end (List.cons_ne_nil x cs), bind_eq_ok] at hlines
      obtain ⟨next, u, hline, hrest⟩ := hlines
      rw [Page.empty, Page.line_eq_markupLine hin] at hline
      have hlevel : Indent.level none ((x :: cs).takeWhile isSpacing) = (.ok 0, none) := by
        rw [hrun]
        rfl
      have hcheck := Page.checkLevel_of_markupLine hlevel hline
      rw [Page.markupLine_eq_content hlevel hcheck] at hline
      obtain ⟨id, tail, r, v, hchain, hend, rfl⟩ := Page.content_of_ok hline
      obtain ⟨rfl, hlineEnd⟩ := endRun_of_ok hend
      change Page.chain _ 0 _ ⟨(Cursor.start (x :: cs)).skipSpacing, none, (s, [])⟩ = _ at hchain
      rw [hskip] at hchain
      have hplace := (place_of_chain hchain).leads (Cursor.leads_skipSpacing _)
      have hc : r.cursor.skipSpacing = _ := eq_of_atLineEnd hb hplace hlineEnd
      rw [hc] at hend hrest
      rw [List.length_cons, Page.lines_at_end rfl] at hrest
      cases hrest
      exact ⟨page.outline, id, tail, r, hchain, hend, rfl⟩
  · contradiction

end Alone

/-- A line to be written: its level, and what it says. By itself, what it says is read as one tree,
whose innermost line does not reach below itself. -/
structure Written (maxDepth : Nat) where
  level : Nat
  content : List Char
  /-- What is read of the content alone. -/
  tree : Token Shape
  unbroken : ∀ x ∈ content, isBreak x = false
  unindented : content.head?.any isSpacing = false
  alone : ∃ root, lex loose maxDepth content () = .ok root ∧ root.children = [tree] ∧
    level + root.lineDepth ≤ maxDepth
  closed : ∀ line ∈ tree.innermost?, ¬line.OpensBlock

namespace Written

variable {maxDepth : Nat}

/-- A line, indented by its level. -/
def text (unit : IndentUnit) (w : Written maxDepth) : List Char :=
  unit.margin w.level ++ (w.content ++ ['\n'])

/-- Lines, one below the other. -/
def document (unit : IndentUnit) (lines : List (Written maxDepth)) : List Char :=
  lines.flatMap (text unit)

end Written

section Margin

variable {unit : IndentUnit} {level : Nat}

theorem isSpacing_of_mem_margin {x : Char} (h : x ∈ unit.margin level) : isSpacing x = true := by
  rw [List.eq_of_mem_replicate h]
  cases unit <;> rfl

/-- The first indented line fixes the unit that it is indented by. -/
theorem ofRun_margin (h : 0 < unit.width) : IndentUnit.ofRun (unit.margin 1) = unit := by
  cases unit with
  | tab => rfl
  | spaces width =>
    obtain ⟨n, rfl⟩ : ∃ n, width = n + 1 := ⟨width - 1, by rw [IndentUnit.width] at h; omega⟩
    have hm : (IndentUnit.spaces (n + 1)).margin 1 = List.replicate (n + 1) ' ' := by
      rw [IndentUnit.margin, IndentUnit.width, Nat.one_mul]
      rfl
    rw [hm, IndentUnit.ofRun, List.takeWhile_replicate]
    simp [List.replicate_succ]

/-- What may be known of a unit before a line at a level: it is known, or the line is the first that
may be indented. -/
def MayKnow (known : Option IndentUnit) (unit : IndentUnit) (level : Nat) : Prop :=
  known = some unit ∨ known = none ∧ level ≤ 1

/-- A line indented by its level is at that level, and the next one may be one level deeper. -/
theorem level_margin {known : Option IndentUnit} (h : 0 < unit.width)
    (hk : MayKnow known unit level) : ∃ known', Indent.level known (unit.margin level) =
      (.ok level, known') ∧ ∀ next ≤ level + 1, MayKnow known' unit next := by
  cases level with
  | zero =>
    rw [IndentUnit.margin_zero]
    refine ⟨known, by cases known <;> rfl, fun next hnext ↦ hk.imp_right ?_⟩
    exact fun hn ↦ ⟨hn.1, hnext⟩
  | succ level =>
    have hne : (unit.margin (level + 1)).isEmpty = false := by
      have hpos : 0 < (level + 1) * unit.width := Nat.mul_pos (Nat.succ_pos _) h
      rw [IndentUnit.margin, List.isEmpty_replicate]
      exact decide_eq_false (Nat.ne_of_gt hpos)
    have hlearn : Indent.learn known (unit.margin (level + 1)) = some unit := by
      rw [Indent.learn, hne]
      rcases hk with rfl | ⟨rfl, hle⟩
      · rfl
      · obtain rfl : level = 0 := by omega
        exact congrArg some (ofRun_margin h)
    refine ⟨some unit, ?_, fun _ _ ↦ .inl rfl⟩
    rw [Indent.level, hlearn]
    dsimp only
    rw [hne, Indent.units_margin h]
    rfl

/-- A line indented by its level is read behind the margin. -/
theorem exists_line_eq_content {g : Setup σ E} {o : Outline E} {u : ReadState σ} {x : Char}
    {rest : List Char} (h : 0 < unit.width) (hu : u.cursor.rest = unit.margin level ++ x :: rest)
    (hx : isSeparator x = false) (hk : MayKnow u.unit unit level)
    (hcheck : o.checkLevel level = none) : ∃ known,
      Page.line g ⟨o, none⟩ u =
        Page.content g o level ⟨u.cursor.past (unit.margin level), known, u.parser⟩ ∧
      ∀ next ≤ level + 1, MayKnow known unit next := by
  rw [isSeparator, Bool.or_eq_false_iff] at hx
  have hrun : u.cursor.rest.takeWhile isSpacing = unit.margin level := by
    rw [hu, List.takeWhile_append_of_pos fun x ↦ isSpacing_of_mem_margin, List.takeWhile_cons,
      if_neg (by rw [hx.1]; decide), List.append_nil]
  have hpast : (u.cursor.past (unit.margin level)).rest = x :: rest :=
    Cursor.rest_past_append _ _ _ hu
  have hin : u.cursor.skipSpacing.atLineEnd = false := by
    change (u.cursor.past (u.cursor.rest.takeWhile isSpacing)).atLineEnd = false
    rw [hrun, Cursor.atLineEnd, hpast]
    exact hx.2
  obtain ⟨known, hind, hknown⟩ := level_margin h hk
  refine ⟨known, ?_, hknown⟩
  rw [← hrun] at hind
  rw [Page.line_eq_markupLine hin, Page.markupLine_eq_content hind hcheck, hrun]

end Margin

namespace Written

variable {maxDepth : Nat} {w : Written maxDepth}

theorem content_ne_nil (w : Written maxDepth) : w.content ≠ [] := by
  obtain ⟨root, hlex, hroot, -⟩ := w.alone
  intro hnil
  rw [hnil] at hlex
  have : lex loose maxDepth [] () = .ok (Outline.empty maxDepth).finish := rfl
  rw [this] at hlex
  cases hlex
  contradiction

/-- The tree of one chain. -/
theorem finish_of_chain {line : Token E} {o : Outline E} {id : LineId}
    (h : (Outline.empty maxDepth).openLine 0 line = .ok (o, id)) (lines : List (Token E)) :
    (o.follow id lines).1.finish.children = [nest [] line lines] := by
  obtain ⟨ts, hlength, hroot, hget⟩ := ((Laid.empty maxDepth).follow h lines).finish
  have htree := hget 0 _ rfl
  match ts, hlength with
  | [t], _ =>
    rw [hroot]
    exact congrArg (fun t ↦ [t]) (Option.some.inj htree)

/-- The end of a line is found alike where a line break follows. -/
theorem endRun_onLine {content below : List Char} {shift offset : Nat} {t : ReadState σ}
    {v : ReadState Unit} {known : Option IndentUnit}
    (h : (Link.onLine σ E content shift below known).States t v)
    (hend : endRun false t = .ok () { t with cursor := ⟨offset, []⟩ }) :
    endRun false v = .ok () { v with cursor := ⟨offset + shift, '\n' :: below⟩ } := by
  have hruns := Link.endRun_rel false t v h
  unfold Link.RunsUnless at hruns
  rw [hend] at hruns
  obtain ⟨⟨⟩, v', hv, -, hstates⟩ := hruns.resolve_left not_false
  have hc : v'.cursor = ⟨offset + shift, '\n' :: below⟩ := by
    obtain ⟨before, after, -, hc, hd⟩ := hstates.places
    obtain ⟨hoffset, hrest⟩ := (Cursor.mk.injEq ..).mp hc
    obtain ⟨rfl, -⟩ := List.append_eq_nil_iff.1 (List.append_eq_nil_iff.1 hrest.symm).2
    rw [hd, ← hoffset]
    rfl
  rw [hv]
  obtain ⟨rfl, -⟩ := endRun_of_ok hv
  rw [← hc]

/-- Read alone, the line is a chain, and so it is on its line of the document. -/
theorem exists_chain (w : Written maxDepth) {u : ReadState Unit} {below : List Char} {rounds : Nat}
    (hu : u.cursor.rest = w.content ++ '\n' :: below) (hrounds : w.content.length < rounds) :
    ∃ line lines, w.tree = nest [] line lines ∧ Line.IsBare line ∧
      (∀ l ∈ lines, Line.IsBare l) ∧ w.level + lines.length < maxDepth ∧
      ∀ {o o' : Outline Shape} {id : LineId}, o.has (o.parentAt w.level) = true →
        o.openLine w.level (line.shift u.cursor.offset) = .ok (o', id) →
        Page.content ⟨loose, maxDepth, rounds⟩ o w.level u = .ok
          ⟨(o'.follow id (shiftAll u.cursor.offset lines)).1, none⟩
          { u with cursor := ⟨byteLength w.content + u.cursor.offset + 1, below⟩ } := by
  obtain ⟨root, hlex, hroot, hdepth⟩ := w.alone
  obtain ⟨o₁, id₁, tail, t, hchain, hend, rfl⟩ := exists_chain_of_lex w.unbroken w.unindented hlex
    (by rw [hroot]; exact List.cons_ne_nil _ _)
  let L : Link (Unit × List (Call Shape)) Unit Shape Shape :=
    .onLine _ _ w.content u.cursor.offset below u.unit
  have hm : ∀ r t, ¬L.Astray r t := by
    rintro _ _ (⟨_, _, _, _, _, hrejected⟩ | ⟨⟨_, _, hparts⟩, -⟩)
    · exact hrejected
    · exact hparts
  have hs : L.States ⟨.start w.content, none, ((), [])⟩ u := by
    refine ⟨⟨[], w.content, rfl, ?_, ?_⟩, trivial, rfl⟩
    · exact congrArg (Cursor.mk 0) (List.append_nil _).symm
    · change u.cursor = ⟨0 + u.cursor.offset, LineEnding.lf.write w.content ++ '\n' :: below⟩
      rw [LineEnding.write_lf, Nat.zero_add, ← hu]
  have hg : L.Setups ⟨recorded loose, maxDepth, w.content.length + 1⟩ ⟨loose, maxDepth, rounds⟩ :=
    (answers_onLine _ _ below u.unit).setups (fun _ ↦ .inl) (fun _ ↦ .inl) rfl hrounds (.inl trivial)
  obtain ⟨line, lines, p, owner, hp, hfollow, hlines⟩ := Link.chain_along hg hm hs w.level hchain
  obtain rfl : o₁ = (p.follow owner lines).1 := congrArg Prod.fst hfollow
  have htree : w.tree = nest [] line lines := by
    rw [finish_of_chain hp] at hroot
    exact (List.cons.inj hroot).1.symm
  have hclosed : ¬(lines.getLastD line).OpensBlock := by
    refine w.closed _ ?_
    rw [htree, innermost_nest hlines.bare hlines.bares]
    rfl
  have hlevel : w.level + lines.length < maxDepth := by
    have hlt : lines.length < (nest [] line lines).lineDepth :=
      length_lt_lineDepth_nest hlines.bare hlines.bares
    rw [lineDepth_eq, hroot, lineDepthBelow_cons, htree] at hdepth
    omega
  refine ⟨line, lines, htree, hlines.bare, hlines.bares, hlevel, fun hhas ho ↦ ?_⟩
  rw [← Recast.token_moved u.cursor.offset line] at ho
  rw [← Recast.tokens_moved u.cursor.offset lines]
  obtain ⟨v, hv, ht⟩ := hlines.along hhas ho hlevel hclosed
  have htail : ∀ interpolate, tail ≠ .verbatim interpolate := by
    rintro interpolate rfl
    exact hclosed (hlines.opens interpolate rfl)
  have hunit : v.unit = u.unit := ht.units
  rw [Page.content_eq_ok hv (endRun_onLine ht hend) htail]
  dsimp only
  rw [hunit]
  rfl

theorem exists_openLine {o : Outline E} {level : Nat} (h : o.checkLevel level = none)
    (line : Token E) : ∃ o' id, o.openLine level line = .ok (o', id) := by
  rw [openLine, h]
  exact ⟨_, _, rfl⟩

/-- There is a level for what a line says. -/
theorem level_lt (w : Written maxDepth) : w.level < maxDepth := by
  obtain ⟨-, lines, -, -, -, hdepth, -⟩ := w.exists_chain
    (u := ⟨⟨0, w.content ++ ['\n']⟩, none, ()⟩) rfl (Nat.lt_succ_self _)
  exact Nat.lt_of_le_of_lt (Nat.le_add_right _ _) hdepth

/-- The next line of a document makes one more chain. -/
theorem line_eq_ok (w : Written maxDepth) {unit : IndentUnit} (hunit : 0 < unit.width)
    {u : ReadState Unit} {below : List Char} {rounds : Nat}
    (hu : u.cursor.rest = w.text unit ++ below) (hrounds : w.content.length < rounds)
    (hk : MayKnow u.unit unit w.level) {levels : List Nat} {cs : List (Chain Shape)}
    {o : Outline Shape} (h : Laid levels cs o) (hlevel : w.level ≤ o.openLines.length)
    (hmax : o.maxDepth = maxDepth) : ∃ c o' known,
      Page.line ⟨loose, maxDepth, rounds⟩ ⟨o, none⟩ u = .ok ⟨o', none⟩
        ⟨⟨u.cursor.offset + byteLength (w.text unit), below⟩, known, ()⟩ ∧
      (∀ next ≤ w.level + 1, MayKnow known unit next) ∧ Laid (levels ++ [w.level]) (cs ++ [c]) o' ∧
      o'.openLines.length = w.level + 1 ∧ o'.maxDepth = maxDepth ∧
      ∀ nested, nest nested c.line c.followers =
        graft nested (w.tree.shift (u.cursor.offset + byteLength (unit.margin w.level))) := by
  have hrest : u.cursor.rest = unit.margin w.level ++ (w.content ++ '\n' :: below) := by
    rw [hu, text, List.append_assoc, List.append_assoc]
    rfl
  obtain ⟨x, xs, hx⟩ := List.exists_cons_of_ne_nil w.content_ne_nil
  have hseparator : isSeparator x = false := by
    have hspacing := w.unindented
    rw [hx] at hspacing
    have hbreak := w.unbroken x (by rw [hx]; exact List.mem_cons_self ..)
    exact Bool.or_eq_false_iff.2 ⟨hspacing, hbreak⟩
  have hcheck : o.checkLevel w.level = none := by
    rw [checkLevel, if_neg (Nat.not_le.2 (hmax ▸ w.level_lt)), if_neg (Nat.not_lt.2 hlevel)]
  obtain ⟨known, hline, hknown⟩ := exists_line_eq_content (g := ⟨loose, maxDepth, rounds⟩) hunit
    (hrest.trans (by rw [hx]; rfl)) hseparator hk hcheck
  obtain ⟨k, hplace⟩ : ∃ k, u.cursor.offset + byteLength (unit.margin w.level) = k := ⟨_, rfl⟩
  have hpast : u.cursor.past (unit.margin w.level) = ⟨k, w.content ++ '\n' :: below⟩ :=
    Cursor.Leads.past_eq ⟨hrest, hplace.symm⟩
  obtain ⟨line, lines, htree, hbare, hbares, hdepth, hcontent⟩ := w.exists_chain
    (u := ⟨⟨k, w.content ++ '\n' :: below⟩, known, u.parser⟩) rfl hrounds
  obtain ⟨o', id, ho⟩ := exists_openLine hcheck (line.shift k)
  obtain ⟨-, hopen, hmax'⟩ := follow_openLine ho (shiftAll k lines)
  rw [hplace]
  refine ⟨⟨o.parentAt w.level, line.shift k, shiftAll k lines⟩, _, known, ?_, hknown,
    h.follow ho _, ?_, hmax'.trans hmax, fun nested ↦ ?_⟩
  · have hoffset : byteLength w.content + k + 1 = u.cursor.offset + byteLength (w.text unit) := by
      have hbreak : byteLength ['\n'] = 1 := rfl
      rw [text, byteLength_append, byteLength_append, hbreak]
      omega
    rw [hline, hpast, hcontent (h.has_parentAt hlevel) ho]
    dsimp only
    rw [hoffset]
  · rw [hopen, List.length_append, List.length_take, List.length_singleton,
      Nat.min_eq_left hlevel]
  · rw [htree, shift_nest, shiftAll_nil, graft_nest (isBare_shift hbare) (isBare_shiftAll hbares)]

@[simp] theorem document_nil (unit : IndentUnit) :
    document unit ([] : List (Written maxDepth)) = [] := rfl

theorem document_cons (unit : IndentUnit) (w : Written maxDepth) (lines : List (Written maxDepth)) :
    document unit (w :: lines) = w.text unit ++ document unit lines :=
  List.flatMap_cons ..

theorem length_text (unit : IndentUnit) (w : Written maxDepth) :
    (w.text unit).length = (unit.margin w.level).length + (w.content.length + 1) := by
  rw [text, List.length_append, List.length_append, List.length_singleton]

theorem length_le_document (unit : IndentUnit) (lines : List (Written maxDepth)) :
    lines.length ≤ (document unit lines).length := by
  induction lines with
  | nil => exact Nat.le_refl 0
  | cons w lines ih =>
    rw [document_cons, List.length_append, length_text, List.length_cons]
    omega

theorem length_content_lt {unit : IndentUnit} {lines : List (Written maxDepth)} (h : w ∈ lines) :
    w.content.length < (document unit lines).length := by
  induction lines with
  | nil => contradiction
  | cons v lines ih =>
    rw [document_cons, List.length_append, length_text]
    rcases List.mem_cons.1 h with rfl | h
    · omega
    · have := ih h
      omega

/-- Where what a line says stands in the document. -/
def place (unit : IndentUnit) (lines : List (Written maxDepth)) (i : Nat) : Nat :=
  byteLength (document unit (lines.take i)) +
    byteLength (unit.margin ((lines.map level).getD i 0))

theorem place_zero (unit : IndentUnit) (w : Written maxDepth) (lines : List (Written maxDepth)) :
    place unit (w :: lines) 0 = byteLength (unit.margin w.level) :=
  Nat.zero_add _

theorem place_succ (unit : IndentUnit) (w : Written maxDepth) (lines : List (Written maxDepth))
    (i : Nat) : place unit (w :: lines) (i + 1) = byteLength (w.text unit) + place unit lines i := by
  rw [place, List.take_succ_cons, document_cons, byteLength_append, Nat.add_assoc]
  rfl

/-- The lines of a document make one chain each, which is what the line is alone in its place. -/
theorem lines_eq_ok {unit : IndentUnit} (hunit : 0 < unit.width) (lines : List (Written maxDepth))
    {u : ReadState Unit} {rounds n : Nat} (hu : u.cursor.rest = document unit lines)
    (hrounds : ∀ w ∈ lines, w.content.length < rounds) (hn : lines.length < n)
    {levels : List Nat} {cs : List (Chain Shape)} {o : Outline Shape} (h : Laid levels cs o)
    (hmax : o.maxDepth = maxDepth) (hclimb : Levels.Climb o.openLines.length (lines.map level))
    (hk : ∀ next ≤ o.openLines.length, MayKnow u.unit unit next) :
    ∃ (cs' : List (Chain Shape)) (o' : Outline Shape) (v : ReadState Unit),
      Page.lines ⟨loose, maxDepth, rounds⟩ n ⟨o, none⟩ u = .ok ⟨o', none⟩ v ∧
      Laid (levels ++ lines.map level) (cs ++ cs') o' ∧
      ∀ i (w : Written maxDepth), lines[i]? = some w → ∃ c : Chain Shape, cs'[i]? = some c ∧ ∀ nested,
        nest nested c.line c.followers =
          graft nested (w.tree.shift (u.cursor.offset + place unit lines i)) := by
  induction lines generalizing u n levels cs o with
  | nil =>
    obtain ⟨n, rfl⟩ : ∃ k, n = k + 1 := ⟨n - 1, by omega⟩
    refine ⟨[], o, u, Page.lines_at_end hu, ?_, nofun⟩
    rwa [List.map_nil, List.append_nil, List.append_nil]
  | cons w lines ih =>
    obtain ⟨n, rfl⟩ : ∃ k, n = k + 1 := ⟨n - 1, by omega⟩
    rw [document_cons] at hu
    rw [List.forall_mem_cons] at hrounds
    obtain ⟨hlevel, hclimb⟩ := hclimb
    obtain ⟨c, o₁, known, hline, hknown, hlaid, hopen, hmax₁, hnest⟩ :=
      w.line_eq_ok hunit hu hrounds.1 (hk _ hlevel) h hlevel hmax
    obtain ⟨cs', o', v, hlines, hlaid', hnests⟩ := ih
      (u := ⟨⟨u.cursor.offset + byteLength (w.text unit), document unit lines⟩, known, ()⟩) rfl
      hrounds.2 (Nat.lt_of_succ_lt_succ hn) hlaid hmax₁ (hopen ▸ hclimb) (hopen ▸ hknown)
    have hin : u.cursor.rest ≠ [] := by
      intro hnil
      have hlength := length_text unit w
      rw [hu, List.append_eq_nil_iff] at hnil
      rw [hnil.1, List.length_nil] at hlength
      omega
    refine ⟨c :: cs', o', v, ?_, ?_, fun i v hv ↦ ?_⟩
    · rw [Page.lines_before_end hin, bind_of_ok hline]
      exact hlines
    · rw [List.map_cons, List.append_cons levels, List.append_cons cs]
      exact hlaid'
    · cases i with
      | zero =>
        cases hv
        refine ⟨c, rfl, fun nested ↦ ?_⟩
        rw [hnest, place_zero]
      | succ i =>
        obtain ⟨d, hd, hgraft⟩ := hnests i v hv
        refine ⟨d, hd, fun nested ↦ ?_⟩
        rw [hgraft, place_succ, Nat.add_assoc]

/-- Lines that can be read alone make a document. Each is the tree that it is alone, moved to its
place, and under its innermost line are, in order, the trees of the lines that lie under it. -/
theorem lex_document {unit : IndentUnit} (hunit : 0 < unit.width) {lines : List (Written maxDepth)}
    (hclimb : Levels.Climb 0 (lines.map level)) : ∃ ts : List (Token Shape),
      ts.length = lines.length ∧
      lex loose maxDepth (document unit lines) () =
        .ok ⟨.root, "", ⟨0, 0⟩, none, under 0 (lines.map level) ts⟩ ∧
      ∀ i (w : Written maxDepth), lines[i]? = some w → ts[i]? = some
        (graft (under (some i) (Levels.parents (lines.map level)) ts)
          (w.tree.shift (place unit lines i))) := by
  have hk : ∀ next ≤ 0, MayKnow none unit next :=
    fun next hnext ↦ .inr ⟨rfl, Nat.le_trans hnext (Nat.zero_le 1)⟩
  obtain ⟨cs, o, v, hlines, hlaid, hnests⟩ := lines_eq_ok hunit lines
    (u := ⟨.start (document unit lines), none, ()⟩) rfl
    (fun w hw ↦ Nat.lt_succ_of_lt (length_content_lt hw))
    (Nat.lt_succ_of_le (length_le_document unit lines)) (Laid.empty maxDepth) rfl hclimb hk
  obtain ⟨ts, hlength, hroot, htrees⟩ := hlaid.finish
  refine ⟨ts, ?_, ?_, fun i w hw ↦ ?_⟩
  · rw [hlength, List.nil_append, List.length_map]
  · have hread : readTemplate loose maxDepth (document unit lines) () = .ok o.finish v :=
      bind_of_ok hlines
    have hfinish : o.finish = ⟨.root, "", ⟨0, 0⟩, none, o.finish.children⟩ := rfl
    rw [lex, hread, hfinish, hroot, List.nil_append]
  · obtain ⟨c, hc, hgraft⟩ := hnests i w hw
    rw [htrees i c hc, hgraft]
    exact congrArg (fun k ↦ some (graft _ (w.tree.shift k))) (Nat.zero_add _)

/-- Whether a line can be written at a level. -/
def canWrite (maxDepth level : Nat) (content : List Char) : Bool :=
  content.all (!isBreak ·) && !content.head?.any isSpacing &&
    match lex loose maxDepth content () with
    | .ok root =>
      match root.children with
      | [tree] => decide (level + root.lineDepth ≤ maxDepth) &&
          tree.innermost?.all fun line ↦ line.preorder.all fun u ↦ !u.kind.opensBlock
      | _ => false
    | .error _ => false

theorem exists_of_canWrite {level : Nat} {content : List Char}
    (h : canWrite maxDepth level content = true) :
    ∃ w : Written maxDepth, w.level = level ∧ w.content = content := by
  rw [canWrite, Bool.and_eq_true, Bool.and_eq_true] at h
  obtain ⟨⟨hb, hf⟩, h⟩ := h
  split at h
  · rename_i root hlex
    split at h
    · rename_i tree hroot
      rw [Bool.and_eq_true, decide_eq_true_eq] at h
      refine ⟨⟨level, content, tree, by simpa using hb, by simpa using hf,
        ⟨root, hlex, hroot, h.1⟩, ?_⟩, rfl, rfl⟩
      rintro line hline ⟨u, hu, hk⟩
      have hall := h.2
      rw [hline, Option.all_some, List.all_eq_true] at hall
      simpa [hk] using hall u hu
    · contradiction
  · contradiction

/-- The text lies under the link that follows the item, and the item under the list. -/
theorem lex_document_list : ∃ (lines : List (Written 8)) (ts : List (Token Shape)),
    document (.spaces 2) lines = "ul\n  li: a\n    | x\np\n".toList ∧ ts.length = 4 ∧
      lex loose 8 "ul\n  li: a\n    | x\np\n".toList () =
        .ok ⟨.root, "", ⟨0, 0⟩, none, under 0 [0, 1, 2, 0] ts⟩ := by
  obtain ⟨ul, hul⟩ := exists_of_canWrite (show canWrite 8 0 "ul".toList = true by cbv)
  obtain ⟨li, hli⟩ := exists_of_canWrite (show canWrite 8 1 "li: a".toList = true by cbv)
  obtain ⟨x, hx⟩ := exists_of_canWrite (show canWrite 8 2 "| x".toList = true by cbv)
  obtain ⟨p, hp⟩ := exists_of_canWrite (show canWrite 8 0 "p".toList = true by cbv)
  have hlevels : [ul, li, x, p].map level = [0, 1, 2, 0] := by
    simp [hul, hli, hx, hp]
  have hclimb : Levels.Climb 0 ([ul, li, x, p].map level) := by
    rw [hlevels]
    simp [Levels.Climb]
  have hsource : document (.spaces 2) [ul, li, x, p] =
      "ul\n  li: a\n    | x\np\n".toList := by
    simp [document, text, hul, hli, hx, hp, IndentUnit.margin, IndentUnit.width, IndentUnit.char]
  obtain ⟨ts, hlength, hlex, -⟩ := lex_document (show 0 < (IndentUnit.spaces 2).width by decide) hclimb
  rw [hsource, hlevels] at hlex
  exact ⟨_, ts, hsource, hlength, hlex⟩

end Written

end Pug

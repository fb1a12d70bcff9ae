import Pug.Proofs.Layout.Tree
import Pug.Proofs.Layout.Steps
import Pug.Proofs.Lockstep.Page

/-!
# The course of a run

A template is read line by line. What one line does to the page is told by `Page.Step`: it is passed
as blank, it is added as text under the line that makes it text, or it is opened at its level with the
lines that follow it. The *stops* of a run are the pages and states that it has in front of its lines,
in order; a run is known by its stops and by what each step does.
-/

namespace Pug

open Text Token Reader Outline

variable {σ E : Type}

namespace ReadState

/-- The spacing that the line starts with. -/
def spacing (s : ReadState σ) : List Char :=
  s.cursor.rest.takeWhile isSpacing

/-- There is something on the line. -/
def Written (s : ReadState σ) : Prop :=
  s.cursor.skipSpacing.atLineEnd = false

/-- The state behind some of the spacing in front, in which the unit is known. -/
def behind (s : ReadState σ) (margin : List Char) : ReadState σ :=
  ⟨s.cursor.past margin, Indent.learn s.unit s.spacing, s.parser⟩

end ReadState

namespace Page

variable {g : Setup σ E} {level n : Nat} {o o' : Outline E} {owner id : LineId} {p q : Page E}
variable {s t u : ReadState σ} {tail : LineTail}

/-- What makes the line text: a block, and the margin that the line has in it. -/
def takes (p : Page E) (s : ReadState σ) : Option (Verbatim × List Char) :=
  p.verbatim.bind fun block ↦
    (Indent.marginOf s.unit (block.level + 1) s.spacing).1.map (block, ·)

/-- The lines of one line of the template as they are read: each but the last asks for another one
to follow. -/
inductive Strung (Made : Token E × LineTail → Prop) : Token E → List (Token E) → LineTail → Prop where
  | last {line : Token E} {tail : LineTail} (h : Made (line, tail)) (htail : tail ≠ .follow) :
    Strung Made line [] tail
  /-- Nothing follows at the end of the line. -/
  | end {line : Token E} (h : Made (line, .follow)) : Strung Made line [] .plain
  | cons {line next : Token E} {lines : List (Token E)} {tail : LineTail}
    (h : Made (line, .follow)) (hnext : Strung Made next lines tail) :
    Strung Made line (next :: lines) tail

/-- A line read at a level. -/
def Made (g : Setup σ E) (level : Nat) (r : Token E × LineTail) : Prop :=
  ∃ s t : ReadState σ, Line.markup g level s = .ok r t

/-- What a line and those that follow it on the same line of the template do to an outline: the first
is opened at the level, and each of the others expands the one before it. -/
structure Opens (g : Setup σ E) (level : Nat) (o : Outline E) (line : Token E)
    (lines : List (Token E)) (o' : Outline E) (owner : LineId) (tail : LineTail) : Prop where
  strung : Strung (Made g level) line lines tail
  follow : ∃ o₁ id, o.openLine level line = .ok (o₁, id) ∧ o₁.follow id lines = (o', owner)
  length_le : lines.length ≤ g.maxDepth - (level + 1)

/-- The block that the lines below a line may be text of. -/
def below (owner : LineId) (level : Nat) : LineTail → Option Verbatim
  | .verbatim interpolate => some ⟨owner, level, interpolate⟩
  | _ => none

/-- What one line does to a page. -/
inductive Step (g : Setup σ E) (p : Page E) (s : ReadState σ) : Page E → ReadState σ → Prop where
  /-- A blank line is passed. -/
  | blank (h : s.cursor.skipSpacing.atLineEnd = true) :
    Step g p s p { s with cursor := s.cursor.skipSpacing.nextLine }
  /-- A line of text is added under its owner. -/
  | text {block : Verbatim} {margin : List Char} {line : Token E} {t : ReadState σ}
    (h : s.Written) (htakes : p.takes s = some (block, margin))
    (hline : Line.verbatim g block.interpolate (s.behind margin) = .ok line t) :
    Step g p s ⟨(p.outline.append block.owner line).1, some block⟩
      { t with cursor := t.cursor.nextLine }
  /-- Any other line is opened at its level, with those that follow it. -/
  | markup {level : Nat} {line : Token E} {lines : List (Token E)} {o : Outline E} {owner : LineId}
    {tail : LineTail} {t : ReadState σ} (h : s.Written) (htakes : p.takes s = none)
    (hlevel : (Indent.level s.unit s.spacing).1 = .ok level)
    (hopens : Opens g level p.outline line lines o owner tail)
    (hchain : chain g level p.outline (s.behind s.spacing) = .ok (o, owner, tail) t) :
    Step g p s ⟨o, below owner level tail⟩ { t with cursor := t.cursor.skipSpacing.nextLine }

/-- The lines that follow a line which asks for them. -/
theorem strung_of_followers (h : followers g level n o owner s = .ok (o', id, tail) t) :
    ∃ lines, o.follow owner lines = (o', id) ∧ lines.length ≤ n ∧
      ∀ line : Token E, Made g level (line, .follow) → Strung (Made g level) line lines tail := by
  induction n generalizing o owner s with
  | zero =>
    cases hend : s.cursor.skipSpacing.atLineEnd with
    | true =>
      rw [followers_of_atLineEnd hend] at h
      cases h
      exact ⟨[], rfl, Nat.le_refl 0, fun _ hline ↦ .end hline⟩
    | false => exact absurd h (followers_zero_ne_ok hend)
  | succ n ih =>
    cases hend : s.cursor.skipSpacing.atLineEnd with
    | true =>
      rw [followers_of_atLineEnd hend] at h
      cases h
      exact ⟨[], rfl, Nat.zero_le _, fun _ hline ↦ .end hline⟩
    | false =>
      rw [followers_succ hend, bind_eq_ok] at h
      obtain ⟨⟨next, tail'⟩, r, hnext, h⟩ := h
      obtain ⟨⟨⟩, r', -, hrest⟩ := bind_eq_ok.1 h
      have hmade : Made g level (next, tail') := ⟨_, _, hnext⟩
      dsimp only at hrest
      split at hrest
      · rename_i htail
        obtain ⟨lines, hfollow, hlength, hlines⟩ := ih hrest
        exact ⟨next :: lines, hfollow, Nat.succ_le_succ hlength,
          fun _ hline ↦ .cons hline (hlines next (htail ▸ hmade))⟩
      · rename_i htail
        cases hrest
        exact ⟨[next], rfl, Nat.succ_le_succ (Nat.zero_le n),
          fun _ hline ↦ .cons hline (.last hmade htail)⟩

theorem opens_of_chain (h : chain g level o s = .ok (o', owner, tail) t) :
    ∃ line lines, Opens g level o line lines o' owner tail := by
  obtain ⟨line, tail', r, o₁, id, hline, ho, hrest⟩ := chain_of_ok h
  have hmade : Made g level (line, tail') := ⟨_, _, hline⟩
  split at hrest
  · rename_i htail
    obtain ⟨lines, hfollow, hlength, hlines⟩ := strung_of_followers hrest
    exact ⟨line, lines, hlines line (htail ▸ hmade), ⟨o₁, id, ho, hfollow⟩, hlength⟩
  · rename_i htail
    cases hrest
    exact ⟨line, [], .last hmade htail, ⟨_, _, ho, rfl⟩, Nat.zero_le _⟩

theorem checkLevel_of_openLine {line : Token E} (h : o.openLine level line = .ok (o', id)) :
    o.checkLevel level = none := by
  unfold openLine at h
  split at h
  · contradiction
  · assumption

/-- The last of the lines that follow one that is opened. -/
theorem snd_follow_openLine {line : Token E} (h : o.openLine level line = .ok (o', id))
    (lines : List (Token E)) : (o'.follow id lines).2 = o.entries.size + 1 + lines.length := by
  obtain ⟨-, rfl, ho⟩ := openLine_eq_ok h
  refine snd_follow ?_ lines
  rw [ho]
  exact (size_add o _ line).symm

/-- What a line and those that follow it do to the entries and to the levels of an outline. -/
theorem Opens.outline {line : Token E} {lines : List (Token E)}
    (h : Opens g level o line lines o' owner tail) :
    o'.entries.toList = o.entries.toList ++
        chainEntries (o.parentAt level) (o.entries.size + 1) line lines ∧
      o'.openLines = o.openLines.take level ++ [owner] ∧ o'.maxDepth = o.maxDepth ∧
      owner = o.entries.size + 1 + lines.length ∧ o.checkLevel level = none := by
  obtain ⟨o₁, id, ho, hfollow⟩ := h.follow
  have hlines := follow_openLine ho lines
  have howner := snd_follow_openLine ho lines
  rw [hfollow] at hlines howner
  obtain rfl : owner = _ := howner
  exact ⟨hlines.1, hlines.2.1, hlines.2.2, rfl, checkLevel_of_openLine ho⟩

/-- The last line of a chain is the last line of the outline. -/
theorem Opens.owner_eq {line : Token E} {lines : List (Token E)}
    (h : Opens g level o line lines o' owner tail) : owner = o'.entries.size := by
  obtain ⟨hentries, -, -, howner, -⟩ := h.outline
  have hlength := congrArg List.length hentries
  rw [List.length_append, length_chainEntries, Array.length_toList, Array.length_toList] at hlength
  rw [howner, hlength]
  exact Nat.add_right_comm ..

/-- What makes a line text is found where the margin is looked for. -/
theorem margin_eq (p : Page E) (s : ReadState σ) : margin? p.verbatim s.spacing s =
    .ok (p.takes s) (if p.verbatim.isSome then { s with unit := Indent.learn s.unit s.spacing }
      else s) := by
  obtain ⟨o, verbatim⟩ := p
  cases verbatim with
  | none => rfl
  | some block =>
    rw [← Indent.marginOf_snd s.unit (block.level + 1)]
    rfl

/-- The margin of a line of text stands in front. -/
theorem front_of_takes {block : Verbatim} {margin : List Char} (h : p.takes s = some (block, margin)) :
    p.verbatim = some block ∧
      (Indent.marginOf s.unit (block.level + 1) s.spacing).1 = some margin ∧
      margin <+: s.cursor.rest := by
  obtain ⟨block', hv, hm⟩ := Option.bind_eq_some_iff.1 h
  obtain ⟨margin', hm, heq⟩ := Option.map_eq_some_iff.1 hm
  cases heq
  exact ⟨hv, hm, (Link.prefix_of_marginOf hm).trans (List.takeWhile_prefix _)⟩

theorem placeAt_margin {margin : List Char} (h : margin <+: s.cursor.rest) :
    placeAt s.cursor (s.cursor.offset + byteLength margin) u = .ok (s.cursor.past margin) u := by
  obtain ⟨others, ho⟩ := h
  have hl := Cursor.leads_past ho.symm
  rw [placeAt, ← hl.2, hl.skipTo_eq, if_pos rfl]
  rfl

/-- A line of text is read behind its margin. -/
theorem line_of_takes {block : Verbatim} {margin : List Char} (h : s.Written)
    (htakes : p.takes s = some (block, margin)) :
    line g p s = textLine g p.outline block (s.behind margin) := by
  obtain ⟨hv, -, hm⟩ := front_of_takes htakes
  have hmargin := margin_eq p s
  rw [htakes] at hmargin
  refine (line_of_not_blank h).trans ((bind_of_ok hmargin).trans ?_)
  rw [if_pos (by rw [hv]; rfl)]
  exact bind_of_ok (placeAt_margin hm)

/-- Whether a unit has been learned from a run makes no difference to what is read behind it. -/
theorem markupLine_learn (start : Cursor) (run : List Char) (s : ReadState σ) :
    markupLine g o start run { s with unit := Indent.learn s.unit run } =
      markupLine g o start run s := by
  have hlevel : Page.level start run { s with unit := Indent.learn s.unit run } =
      Page.level start run s := by
    unfold Page.level
    rw [bind_of_ok (show (get : Reader σ _) _ = .ok _ _ from rfl),
      bind_of_ok (show (get : Reader σ _) s = .ok s s from rfl)]
    dsimp only
    rw [Indent.level_eq (Indent.learn_learn s.unit run)]
    rfl
  unfold markupLine
  cases h : Page.level start run s with
  | ok level t => rw [bind_of_ok h, bind_of_ok (hlevel.trans h)]
  | error f t => rw [bind_of_error h, bind_of_error (hlevel.trans h)]

/-- Any other line is read behind its spacing. -/
theorem line_of_takes_none (h : s.Written) (htakes : p.takes s = none) :
    line g p s = markupLine g p.outline s.cursor s.spacing s := by
  have hmargin := margin_eq p s
  rw [htakes] at hmargin
  refine (line_of_not_blank h).trans ((bind_of_ok hmargin).trans ?_)
  dsimp only
  split
  · exact markupLine_learn s.cursor s.spacing s
  · rfl

/-- What comes behind the spacing is a chain, and the end of the line. -/
theorem below_of_content (h : content g o level s = .ok q t) : ∃ owner tail r,
    chain g level o s = .ok (q.outline, owner, tail) r ∧ q.verbatim = below owner level tail ∧
      t = { r with cursor := r.cursor.skipSpacing.nextLine } := by
  rw [content, bind_eq_ok] at h
  obtain ⟨⟨o', owner, tail⟩, r, hchain, h⟩ := h
  obtain ⟨⟨⟩, u, hend, hrest⟩ := bind_eq_ok.1 h
  rw [(endRun_of_ok hend).1] at hrest
  cases tail <;> cases hrest <;> exact ⟨_, _, _, hchain, rfl, rfl⟩

/-- A line is blank, text, or opened at its level. -/
theorem step_of_line (h : line g p s = .ok q t) : Step g p s q t := by
  cases hc : s.cursor.skipSpacing.atLineEnd with
  | true =>
    rw [line_of_blank hc] at h
    cases h
    exact .blank hc
  | false =>
    cases htakes : p.takes s with
    | some found =>
      rw [line_of_takes hc htakes] at h
      obtain ⟨line, u, hline, h⟩ := bind_eq_ok.1 h
      obtain ⟨c, m, hhere, h⟩ := bind_eq_ok.1 h
      cases hhere
      obtain ⟨⟨⟩, m, hmove, h⟩ := bind_eq_ok.1 h
      cases hmove
      obtain ⟨⟨⟩, m, hexpect, h⟩ := bind_eq_ok.1 h
      obtain rfl := expectLine_of_ok hexpect
      cases h
      exact .text hc htakes hline
    | none =>
      rw [line_of_takes_none hc htakes] at h
      obtain ⟨level, u, hlevel, -⟩ := bind_eq_ok.1 h
      have hindent : Indent.level s.unit s.spacing = (.ok level, Indent.learn s.unit s.spacing) :=
        Prod.ext (level_of_ok hlevel).1 (Indent.level_snd ..)
      rw [markupLine_eq_content hindent (checkLevel_of_markupLine hindent h)] at h
      obtain ⟨owner, tail, r, hchain, hverbatim, rfl⟩ := below_of_content h
      obtain ⟨line, lines, hopens⟩ := opens_of_chain hchain
      obtain ⟨o, verbatim⟩ := q
      obtain rfl : verbatim = _ := hverbatim
      exact .markup hc htakes (level_of_ok hlevel).1 hopens hchain

/-- The pages and states that a run has in front of its lines, in order. -/
def stops (g : Setup σ E) : Nat → Page E → ReadState σ → List (Page E × ReadState σ)
  | 0, _, _ => []
  | n + 1, p, s =>
    if s.cursor.atEnd then []
    else
      (p, s) ::
        match line g p s with
        | .ok q t => stops g n q t
        | .error _ _ => []

theorem stops_at_end (h : s.cursor.rest = []) : stops g n p s = [] := by
  cases n with
  | zero => rfl
  | succ n => rw [stops, if_pos (show s.cursor.atEnd = true from List.isEmpty_iff.2 h)]

theorem stops_of_ok (h : s.cursor.rest ≠ []) (hline : line g p s = .ok q t) :
    stops g (n + 1) p s = (p, s) :: stops g n q t := by
  have hin : ¬s.cursor.atEnd = true := mt List.isEmpty_iff.1 h
  rw [stops, if_neg hin, hline]

theorem stops_of_error {f : Failure} (h : s.cursor.rest ≠ []) (hline : line g p s = .error f t) :
    stops g (n + 1) p s = [(p, s)] := by
  have hin : ¬s.cursor.atEnd = true := mt List.isEmpty_iff.1 h
  rw [stops, if_neg hin, hline]

/-- Where a line fails, all lines fail. -/
theorem lines_of_error {stop : Page E × ReadState σ} {f : Failure} (h : stop ∈ stops g n p s)
    (hline : line g stop.1 stop.2 = .error f u) : lines g n p s = .error f u := by
  induction n generalizing p s with
  | zero => contradiction
  | succ n ih =>
    by_cases hend : s.cursor.rest = []
    · rw [stops_at_end hend] at h
      contradiction
    · rw [lines_before_end hend]
      cases hfirst : line g p s with
      | error f' u' =>
        rw [stops_of_error hend hfirst, List.mem_singleton] at h
        subst h
        rw [bind_of_error hfirst, ← hline, hfirst]
      | ok q t =>
        rw [stops_of_ok hend hfirst, List.mem_cons] at h
        rw [bind_of_ok hfirst]
        rcases h with rfl | h
        · rw [hfirst] at hline
          contradiction
        · exact ih h

/-- What every line keeps holds in front of each line, and in the end. -/
theorem lines_induction {I : Page E → ReadState σ → Prop}
    (hstep : ∀ {p q : Page E} {s t : ReadState σ}, I p s → Step g p s q t → I q t) (h : I p s) :
    (∀ stop ∈ stops g n p s, I stop.1 stop.2) ∧ ∀ q t, lines g n p s = .ok q t → I q t := by
  induction n generalizing p s with
  | zero => exact ⟨nofun, nofun⟩
  | succ n ih =>
    by_cases hend : s.cursor.rest = []
    · rw [stops_at_end hend, lines_at_end hend]
      refine ⟨nofun, ?_⟩
      rintro _ _ ⟨⟩
      exact h
    · rw [lines_before_end hend]
      cases hline : line g p s with
      | error f u =>
        rw [stops_of_error hend hline, bind_of_error hline]
        exact ⟨fun stop hstop ↦ List.mem_singleton.1 hstop ▸ h, nofun⟩
      | ok q t =>
        obtain ⟨hstops, hlines⟩ := ih (hstep h (step_of_line hline))
        rw [stops_of_ok hend hline, bind_of_ok hline]
        exact ⟨List.forall_mem_cons.2 ⟨h, hstops⟩, hlines⟩

/-- The number of levels that are accepted stays. -/
theorem Step.maxDepth_eq (h : Step g p s q t) : q.outline.maxDepth = p.outline.maxDepth := by
  cases h with
  | blank => rfl
  | text => rfl
  | markup _ _ _ hopens =>
    exact hopens.outline.2.2.1

theorem maxDepth_of_lines (h : lines g n p s = .ok q t) :
    q.outline.maxDepth = p.outline.maxDepth :=
  (lines_induction (I := fun q (_ : ReadState σ) ↦ q.outline.maxDepth = p.outline.maxDepth)
    (fun hp hstep ↦ hstep.maxDepth_eq.trans hp) rfl).2 q t h

/-- The outline is in order, and only the innermost open line makes the lines below it text. -/
structure Ordered (p : Page E) : Prop where
  outline : p.outline.Ordered
  verbatim : ∀ block ∈ p.verbatim, p.outline.openLines.getLast? = some block.owner ∧
    p.outline.openLines.length = block.level + 1

theorem Ordered.empty (maxDepth : Nat) : (Page.empty maxDepth : Page E).Ordered :=
  ⟨.empty maxDepth, nofun⟩

theorem Ordered.bounds_owner (hp : p.Ordered) {block : Verbatim} (hblock : p.verbatim = some block) :
    0 < block.owner ∧ block.owner ≤ p.outline.entries.size :=
  hp.outline.bounds block.owner (List.mem_of_getLast? (hp.verbatim block hblock).1)

theorem Opens.level_le {line : Token E} {lines : List (Token E)}
    (h : Opens g level o line lines o' owner tail) : level ≤ o.openLines.length := by
  obtain ⟨o₁, id, ho, -⟩ := h.follow
  exact (openLine_eq_ok ho).1

/-- A line of the template keeps the order. -/
theorem Step.ordered (h : Step g p s q t) (hp : p.Ordered) : q.Ordered := by
  cases h with
  | blank => exact hp
  | @text block margin line t _ htakes =>
    have hblock := (front_of_takes htakes).1
    refine ⟨hp.outline.append (hp.bounds_owner hblock).2 line, fun b hb ↦ ?_⟩
    exact Option.some.inj hb ▸ hp.verbatim block hblock
  | @markup level line lines o owner tail t _ _ _ hopens =>
    obtain ⟨hentries, hopen, -, howner, -⟩ := hopens.outline
    refine ⟨hp.outline.chain hentries (howner ▸ hopen), fun b hb ↦ ?_⟩
    dsimp only at hb ⊢
    cases tail with
    | verbatim interpolate =>
      cases hb
      rw [hopen, List.getLast?_concat, List.length_append, List.length_take,
        Nat.min_eq_left hopens.level_le]
      exact ⟨rfl, rfl⟩
    | plain => contradiction
    | follow => contradiction

/-- Lines of a chain are made by asking for another one to follow, or the last by asking for what the
chain asks for. -/
theorem Strung.made {Made : Token E × LineTail → Prop} {line a : Token E} {lines : List (Token E)}
    (h : Strung Made line lines tail) {k : Nat} (ha : (line :: lines)[k]? = some a) :
    ∃ tail', Made (a, tail') ∧ (tail' = .follow ∨ k = lines.length ∧ tail' = tail) := by
  induction h generalizing k with
  | last hmade =>
    cases k with
    | zero => exact Option.some.inj ha ▸ ⟨_, hmade, .inr ⟨rfl, rfl⟩⟩
    | succ k => contradiction
  | «end» hmade =>
    cases k with
    | zero => exact Option.some.inj ha ▸ ⟨_, hmade, .inl rfl⟩
    | succ k => contradiction
  | cons hmade _ ih =>
    cases k with
    | zero => exact Option.some.inj ha ▸ ⟨_, hmade, .inl rfl⟩
    | succ k =>
      obtain ⟨tail', hmade', htail⟩ := ih ha
      exact ⟨tail', hmade', htail.imp_right fun ⟨hk, ht⟩ ↦ ⟨congrArg _ hk, ht⟩⟩

/-- What is added to a page lies under an open line, under the whole template, or under what is added
with it; and what is open was open before, or is added. -/
theorem Step.adds (h : Step g p s q t) (hp : p.Ordered) :
    ∃ new, q.outline.numbered = p.outline.numbered ++ new ∧
      (∀ x ∈ new, p.outline.entries.size < x.2 ∧ (x.1.parent = 0 ∨
        x.1.parent ∈ p.outline.openLines ∨ p.outline.entries.size < x.1.parent)) ∧
      ∀ id ∈ q.outline.openLines, id ∈ p.outline.openLines ∨ p.outline.entries.size < id := by
  cases h with
  | blank => exact ⟨[], (List.append_nil _).symm, nofun, fun id hid ↦ .inl hid⟩
  | @text block margin line t _ htakes =>
    have hopen := List.mem_of_getLast? (hp.verbatim block (front_of_takes htakes).1).1
    refine ⟨_, numbered_append p.outline block.owner line, ?_, fun id hid ↦ .inl hid⟩
    exact List.forall_mem_singleton.2 ⟨Nat.lt_succ_self _, .inr (.inl hopen)⟩
  | @markup level line lines o owner tail t _ _ _ hopens =>
    obtain ⟨hentries, hopen, -, howner, -⟩ := hopens.outline
    refine ⟨_, numbered_eq hentries, fun x hx ↦ ?_, ?_⟩
    · obtain ⟨k, -, hnumber, hparent, -⟩ := mem_zipIdx_chainEntries hx
      refine ⟨by omega, ?_⟩
      by_cases hk : k = 0
      · rw [hparent, if_pos hk]
        exact (Ordered.parentAt_eq_zero_or_mem p.outline level).imp_right fun hmem ↦
          .inl (List.mem_of_mem_take hmem)
      · rw [hparent, if_neg hk]
        exact .inr (.inr (by omega))
    · dsimp only
      rw [hopen, List.forall_mem_append, List.forall_mem_singleton, howner]
      exact ⟨fun id hid ↦ .inl (List.mem_of_mem_take hid), .inr (by omega)⟩

/-- The stops from a page and a state to a page and a state, and the steps between them. -/
inductive Course (g : Setup σ E) :
    Page E → ReadState σ → List (Page E × ReadState σ) → Page E → ReadState σ → Prop where
  | done (p : Page E) (s : ReadState σ) : Course g p s [] p s
  | step {p q r : Page E} {s t u : ReadState σ} {stops : List (Page E × ReadState σ)}
    (hline : line g p s = .ok q t) (rest : Course g q t stops r u) :
    Course g p s ((p, s) :: stops) r u

/-- A run that ends well has a course. -/
theorem course_of_lines (h : lines g n p s = .ok q t) : Course g p s (stops g n p s) q t := by
  induction n generalizing p s with
  | zero => contradiction
  | succ n ih =>
    by_cases hend : s.cursor.rest = []
    · rw [lines_at_end hend] at h
      cases h
      rw [stops_at_end hend]
      exact .done _ _
    · rw [lines_before_end hend, bind_eq_ok] at h
      obtain ⟨q', t', hline, h⟩ := h
      rw [stops_of_ok hend hline]
      exact .step hline (ih h)

namespace Course

variable {r : Page E} {stops : List (Page E × ReadState σ)}

theorem ordered (h : Course g p s stops r u) (hp : p.Ordered) : r.Ordered := by
  induction h with
  | done => exact hp
  | step hline _ ih => exact ih ((step_of_line hline).ordered hp)

/-- No line is added under one that has been closed. -/
theorem filter_of_closed (h : Course g p s stops r u) (hp : p.Ordered) {id : Nat} (hid : 0 < id)
    (hle : id ≤ p.outline.entries.size) (hclosed : id ∉ p.outline.openLines) :
    r.outline.numbered.filter (·.1.parent = id) = p.outline.numbered.filter (·.1.parent = id) := by
  induction h with
  | done => rfl
  | step hline _ ih =>
    have hstep := step_of_line hline
    obtain ⟨new, hnumbered, hnew, hopen⟩ := hstep.adds hp
    have hsize : _ ≤ _ := size_le_of_numbered hnumbered
    have hnil : new.filter (·.1.parent = id) = [] := by
      refine List.filter_eq_nil_iff.2 fun x hx hparent ↦ ?_
      obtain rfl := of_decide_eq_true hparent
      rcases (hnew x hx).2 with hzero | hmem | hlt
      · exact Nat.ne_of_gt hid hzero
      · exact hclosed hmem
      · exact Nat.not_le_of_gt hlt hle
    rw [ih (hstep.ordered hp) (Nat.le_trans hle hsize) fun hmem ↦ ?_, hnumbered, List.filter_append,
      hnil, List.append_nil]
    exact (hopen id hmem).elim hclosed fun hlt ↦ Nat.not_le_of_gt hlt hle

/-- Nothing stands below a line that has been closed with nothing below it. -/
theorem nested_of_closed (h : Course g p s stops r u) (hp : p.Ordered) {id : Nat} (hid : 0 < id)
    (hle : id ≤ p.outline.entries.size) (hclosed : id ∉ p.outline.openLines)
    (hnone : ∀ x ∈ p.outline.numbered, x.1.parent ≠ id) : r.outline.nested id = [] := by
  have hnil : p.outline.numbered.filter (·.1.parent = id) = [] :=
    List.filter_eq_nil_iff.2 fun x hx ↦ by simpa using hnone x hx
  rw [nested_eq (h.ordered hp).outline.parents, h.filter_of_closed hp hid hle hclosed, hnil,
    List.map_nil]

/-- What holds of every line as it is read, be it a line of the template or text, holds of the lines of
the outline. -/
theorem forall_token (h : Course g p s stops r u) {P : Token E → Prop}
    (hmarkup : ∀ level, (Line.markup g level).Makes fun r ↦ P r.1)
    (htext : ∀ interpolate, (Line.verbatim g interpolate).Makes P)
    (hp : ∀ x ∈ p.outline.numbered, P x.1.token) : ∀ x ∈ r.outline.numbered, P x.1.token := by
  induction h with
  | done => exact hp
  | step hline _ ih =>
    apply ih
    cases step_of_line hline with
    | blank => exact hp
    | text _ _ hverbatim =>
      rw [numbered_append, List.forall_mem_append, List.forall_mem_singleton]
      exact ⟨hp, htext _ _ _ _ hverbatim⟩
    | markup _ _ _ hopens =>
      rw [numbered_eq hopens.outline.1, List.forall_mem_append]
      refine ⟨hp, fun x hx ↦ ?_⟩
      obtain ⟨k, htoken, -⟩ := mem_zipIdx_chainEntries hx
      obtain ⟨tail, ⟨s, t, hmade⟩, -⟩ := hopens.strung.made htoken
      exact hmarkup _ _ _ _ hmade

/-- Each line of the outline was there, or is added by a step. -/
theorem exists_step (h : Course g p s stops r u) (hp : p.Ordered) {x : Entry E × Nat}
    (hx : x ∈ r.outline.numbered) : x ∈ p.outline.numbered ∨
      ∃ before p' s' q t after, stops = before ++ (p', s') :: after ∧
        Course g p s before p' s' ∧ line g p' s' = .ok q t ∧ Course g q t after r u ∧
        x ∈ q.outline.numbered ∧ p'.outline.entries.size < x.2 := by
  induction h with
  | done => exact .inl hx
  | @step p q r s t u stops hline hrest ih =>
    have hstep := step_of_line hline
    rcases ih (hstep.ordered hp) hx with hq | ⟨before, p', s', q', t', after, rfl, hbefore, hstep⟩
    · obtain ⟨new, hnumbered, hnew, -⟩ := hstep.adds hp
      refine (List.mem_append.1 (hnumbered ▸ hq)).imp_right fun hmem ↦ ?_
      exact ⟨[], p, s, q, t, stops, rfl, .done p s, hline, hrest, hq, (hnew x hmem).1⟩
    · exact .inr ⟨_, p', s', q', t', after, rfl, .step hline hbefore, hstep⟩

end Course

end Page

/-- What the reading of a template has in front of its lines, in order. -/
def reached (parser : ExpressionParser σ E) (maxDepth : Nat) (source : List Char) (s : σ) :
    List (Page E × ReadState σ) :=
  Page.stops ⟨parser, maxDepth, source.length + 1⟩ (source.length + 1) (.empty maxDepth)
    ⟨.start source, none, s⟩

end Pug

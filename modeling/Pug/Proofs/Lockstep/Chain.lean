import Pug.Proofs.Layout.Forest
import Pug.Proofs.Layout.Steps
import Pug.Proofs.Lockstep.Line

/-!
# Chains in lockstep

A line and those that follow it are read alike at the same place of a line in a longer template,
at whatever level and into whatever outline, if there are enough levels left for them. The exception
is a chain whose last line reaches below itself.
-/

namespace Pug

open Text Token Reader Outline

variable {σ E : Type}

namespace Line

variable {g : Setup σ E} {level : Nat} {s t : ReadState σ} {line : Token E} {tail : LineTail}

theorem markup_of_ok (h : markup g level s = .ok (line, tail) t) :
    IsBare line ∧ ∀ interpolate, tail = .verbatim interpolate → line.OpensBlock :=
  markup_makes level s _ t h

theorem codeLine_of_loneHyphen (hs : LoneHyphen s.cursor.rest) :
    (Code.line g level).Ensures s (fun r _ ↦ r.1.IsInner ∧ r.1.OpensBlock ∧ r.2 = .plain)
      fun _ _ ↦ True := by
  obtain ⟨rest, hrest, hblank⟩ := hs
  have hrest' : (s.cursor.past ['-']).rest = rest := Cursor.rest_past_append _ _ _ hrest
  have hline : (s.cursor.past ['-']).atBlankLine = true := by
    rw [Cursor.atBlankLine, Cursor.line, hrest', hblank]
  unfold Code.line
  simp only [ensures_bind, ensures_here]
  refine ensures_bump (Cursor.leads_cons hrest) rfl ?_
  simp only [hline, ↓reduceIte]
  refine (Code.blockLine_makes _ _ level).ensures.mono fun r _ hr ↦ ?_
  exact ⟨hr.1.inner, hr.2⟩

/-- Nothing follows a lone `-` on its line. -/
theorem markup_of_loneHyphen (hs : LoneHyphen s.cursor.rest)
    (h : markup g level s = .ok (line, tail) t) : tail = .plain ∧ line.OpensBlock := by
  have hform : Form.ofRest s.cursor.rest = .code := by
    obtain ⟨rest, hrest, -⟩ := hs
    rw [hrest]
    rfl
  have hends : (markup g level).Ensures s (fun r _ ↦ r.2 = .plain ∧ r.1.OpensBlock)
      fun _ _ ↦ True := by
    unfold markup payload
    simp only [ensures_bind, ensures_here, hform]
    refine (codeLine_of_loneHyphen hs).mono fun r t hr ↦ ?_
    refine (lineFrom_makes s.cursor hr.1).ensures.mono fun line _ hline ↦ ⟨hr.2.2, ?_⟩
    refine hr.2.1.below ?_
    rw [hline.2]
    exact List.mem_singleton_self _
  exact hends.of_ok h

end Line

namespace Page

variable {o : Outline E} {level : Nat}

theorem has_expand (o : Outline E) (owner : LineId) (line : Token E) :
    (o.expand owner line).1.has (o.expand owner line).2 = true := by
  simp [Outline.has, Outline.expand, Outline.add]

theorem has_openLine {line : Token E} {o' : Outline E} {id : LineId}
    (h : o.openLine level line = .ok (o', id)) : o'.has id = true := by
  obtain ⟨-, rfl, rfl⟩ := openLine_eq_ok h
  simp [Outline.has, Outline.add]

end Page

namespace Link

variable {σ₁ σ₂ E₁ E₂ : Type} {L : Link σ₁ σ₂ E₁ E₂} {g₁ : Setup σ₁ E₁} {g₂ : Setup σ₂ E₂}
variable {s t : ReadState σ₁} {u : ReadState σ₂} {level level' : Nat} {tail : LineTail}

/-- A line in a longer template. Nothing that reaches below the line may end it. -/
theorem markup_along (hg : L.Setups g₁ g₂) (hm : ∀ r t, ¬L.Astray r t) (hs : L.States s u) (level' : Nat)
    {line : Token E₁} (h : Line.markup g₁ level s = .ok (line, tail) t)
    (hend : tail = .plain → ¬line.OpensBlock) :
    ∃ v, Line.markup g₂ level' u = .ok (L.token line, tail) v ∧ L.States t v := by
  have hb : ¬LoneHyphen s.cursor.rest := by
    intro hb
    obtain ⟨htail, hopens⟩ := Line.markup_of_loneHyphen hb h
    exact hend htail hopens
  have hruns : L.RunsUnless (L.Strays SaysCode s.cursor.rest) (Line.markup g₁ level) s
      (Line.markup g₂ level') u fun a t b v ↦ L.Lines a b ∧ L.States t v :=
    markup_runs hg hs (.inr hb)
  rw [RunsUnless, h] at hruns
  obtain ⟨⟨line', tail'⟩, v, hv, ⟨hline, htail⟩, ht⟩ :=
    hruns.resolve_left fun hstrays ↦ hstrays.elim (hm _ _) fun hcut ↦ hb hcut.1
  dsimp only at hline htail
  rw [hline, htail] at hv
  exact ⟨v, hv, ht⟩

/-- These lines follow one another up to the end of a line, and they do so in the longer template as
well, behind whatever line, unless the last of them reaches below itself. -/
structure Followed (L : Link σ₁ σ₂ E₁ E₂) (g₂ : Setup σ₂ E₂) (level' : Nat) (u : ReadState σ₂)
    (lines : List (Token E₁)) (tail : LineTail) (t : ReadState σ₁) : Prop where
  bare : ∀ line ∈ lines, Line.IsBare line
  opens : ∀ interpolate, tail = .verbatim interpolate → ∃ line ∈ lines.getLast?, line.OpensBlock
  along : ∀ {o : Outline E₂} {owner : LineId} {n : Nat}, o.has owner = true → lines.length ≤ n →
    (∀ line ∈ lines.getLast?, ¬line.OpensBlock) → ∃ v, Page.followers g₂ level' n o owner u = .ok
      ((o.follow owner (L.tokens lines)).1, (o.follow owner (L.tokens lines)).2,
        tail) v ∧ L.States t v

section Followed

variable {line : Token E₁} {lines : List (Token E₁)} {v : ReadState σ₂} {r : ReadState σ₁}

/-- The state behind the spacing. -/
theorem states_skipSpacing (hs : L.States s u) :
    L.States { s with cursor := s.cursor.skipSpacing } { u with cursor := u.cursor.skipSpacing } :=
  ⟨hs.places.skipSpacing, hs.parsers, hs.units⟩

theorem Followed.nil (hs : L.States s u) (h : s.cursor.skipSpacing.atLineEnd = true) :
    L.Followed g₂ level' u ([] : List (Token E₁)) .plain
      { s with cursor := s.cursor.skipSpacing } where
  bare := nofun
  opens := nofun
  along _ _ _ :=
    have h' : u.cursor.skipSpacing.atLineEnd = true := hs.places.skipSpacing.atLineEnd.trans h
    ⟨_, Page.followers_of_atLineEnd h', states_skipSpacing hs⟩

variable (hs : L.States s u) (hend : s.cursor.skipSpacing.atLineEnd = false)
include hs hend

/-- A last line, behind which none follows. -/
theorem Followed.last (hg : L.Setups g₁ g₂) (hm : ∀ r t, ¬L.Astray r t)
    (h : Line.markup g₁ level { s with cursor := s.cursor.skipSpacing } = .ok (line, tail) t)
    (htail : tail ≠ .follow) : L.Followed g₂ level' u [line] tail t where
  bare l hl := by
    rw [List.mem_singleton.1 hl]
    exact (Line.markup_of_ok h).1
  opens i hi := ⟨line, rfl, (Line.markup_of_ok h).2 i hi⟩
  along := by
    intro o owner n hhas hn hopens
    obtain ⟨n, rfl⟩ : ∃ k, n = k + 1 := ⟨n - 1, by rw [List.length_singleton] at hn; omega⟩
    obtain ⟨v, hv, ht⟩ := markup_along hg hm (states_skipSpacing hs) level' h fun _ ↦ hopens line rfl
    refine ⟨v, ?_, ht⟩
    rw [Page.followers_succ (hs.places.skipSpacing.atLineEnd.trans hend), bind_of_ok hv,
      bind_of_ok (Page.expectLine_eq_ok hhas)]
    dsimp only
    rw [if_neg htail, Recast.tokens_cons, Recast.tokens_nil]
    rfl

/-- A line, and those that follow it. -/
theorem Followed.cons
    (h : Line.markup g₁ level { s with cursor := s.cursor.skipSpacing } = .ok (line, .follow) r)
    (hv : Line.markup g₂ level' { u with cursor := u.cursor.skipSpacing } =
      .ok (L.token line, .follow) v)
    (hlines : L.Followed g₂ level' v lines tail t) :
    L.Followed g₂ level' u (line :: lines) tail t where
  bare := List.forall_mem_cons.2 ⟨(Line.markup_of_ok h).1, hlines.bare⟩
  opens i hi := by
    obtain ⟨l, hl, hopens⟩ := hlines.opens i hi
    exact ⟨l, by rw [List.getLast?_cons, hl]; rfl, hopens⟩
  along := by
    intro o owner n hhas hn hopens
    obtain ⟨n, rfl⟩ : ∃ k, n = k + 1 := ⟨n - 1, by rw [List.length_cons] at hn; omega⟩
    obtain ⟨w, hw, ht⟩ := hlines.along (Page.has_expand o owner (L.token line))
      (Nat.le_of_succ_le_succ hn) fun l hl ↦ hopens l (by rw [List.getLast?_cons, hl]; rfl)
    refine ⟨w, ?_, ht⟩
    rw [Page.followers_succ (hs.places.skipSpacing.atLineEnd.trans hend), bind_of_ok hv,
      bind_of_ok (Page.expectLine_eq_ok hhas)]
    exact hw

end Followed

/-- Behind a line come the lines that follow it, and further on they are the same. -/
theorem followers_along (hg : L.Setups g₁ g₂) (hm : ∀ r t, ¬L.Astray r t) {n : Nat} {o o' : Outline E₁}
    {owner id : LineId} (hs : L.States s u) (level' : Nat)
    (h : Page.followers g₁ level n o owner s = .ok (o', id, tail) t) :
    ∃ lines, (o', id) = o.follow owner lines ∧ L.Followed g₂ level' u lines tail t := by
  induction n generalizing s u o owner with
  | zero =>
    cases hend : s.cursor.skipSpacing.atLineEnd with
    | true =>
      rw [Page.followers_of_atLineEnd hend] at h
      cases h
      exact ⟨[], rfl, .nil hs hend⟩
    | false => exact absurd h (Page.followers_zero_ne_ok hend)
  | succ n ih =>
    cases hend : s.cursor.skipSpacing.atLineEnd with
    | true =>
      rw [Page.followers_of_atLineEnd hend] at h
      cases h
      exact ⟨[], rfl, .nil hs hend⟩
    | false =>
      rw [Page.followers_succ hend, bind_eq_ok] at h
      obtain ⟨⟨line, next⟩, r, hline, h⟩ := h
      obtain ⟨⟨⟩, r', hexpect, hrest⟩ := bind_eq_ok.1 h
      obtain rfl := Page.expectLine_of_ok hexpect
      dsimp only at hrest
      split at hrest
      · rename_i hnext
        subst hnext
        obtain ⟨v, hv, hr⟩ := markup_along hg hm (states_skipSpacing hs) level' hline nofun
        obtain ⟨lines, hfollow, hlines⟩ := ih hr hrest
        exact ⟨line :: lines, hfollow, .cons hs hend hline hv hlines⟩
      · rename_i hnext
        cases hrest
        exact ⟨[line], rfl, .last hs hend hg hm hline hnext⟩

/-- A line and those that follow it make a chain, and they do so in the longer template as well, at
whatever level, if there are levels left for them, and unless the last of them reaches below
itself. -/
structure Chained (L : Link σ₁ σ₂ E₁ E₂) (g₂ : Setup σ₂ E₂) (level' : Nat) (u : ReadState σ₂)
    (line : Token E₁) (lines : List (Token E₁)) (tail : LineTail) (t : ReadState σ₁) : Prop where
  bare : Line.IsBare line
  bares : ∀ l ∈ lines, Line.IsBare l
  opens : ∀ interpolate, tail = .verbatim interpolate → (lines.getLastD line).OpensBlock
  along : ∀ {o o' : Outline E₂} {id : LineId}, o.has (o.parentAt level') = true →
    o.openLine level' (L.token line) = .ok (o', id) →
    level' + lines.length < g₂.maxDepth → ¬(lines.getLastD line).OpensBlock →
    ∃ v, Page.chain g₂ level' o u = .ok ((o'.follow id (L.tokens lines)).1,
      (o'.follow id (L.tokens lines)).2, tail) v ∧ L.States t v

/-- What is read at a level is a chain. -/
theorem chain_along (hg : L.Setups g₁ g₂) (hm : ∀ r t, ¬L.Astray r t) (hs : L.States s u) (level' : Nat)
    {o o' : Outline E₁} {id : LineId} (h : Page.chain g₁ level o s = .ok (o', id, tail) t) :
    ∃ line lines p owner, o.openLine level line = .ok (p, owner) ∧
      (o', id) = p.follow owner lines ∧ L.Chained g₂ level' u line lines tail t := by
  obtain ⟨line, next, r, p, owner, hline, hp, hrest⟩ := Page.chain_of_ok h
  have hbare := Line.markup_of_ok hline
  split at hrest
  · rename_i hnext
    subst hnext
    obtain ⟨v, hv, hr⟩ := markup_along hg hm hs level' hline nofun
    obtain ⟨lines, hfollow, hlines⟩ := followers_along hg hm hr level' hrest
    refine ⟨line, lines, p, owner, hp, hfollow, hbare.1, hlines.bare, fun i hi ↦ ?_, ?_⟩
    · obtain ⟨l, hl, hopens⟩ := hlines.opens i hi
      rwa [List.getLastD_eq_getLast?, hl]
    · intro o o' id hhas ho' hdepth hopens
      have hlast : ∀ l ∈ lines.getLast?, ¬l.OpensBlock := by
        intro l hl
        rwa [List.getLastD_eq_getLast?, hl] at hopens
      have hle : lines.length ≤ g₂.maxDepth - (level' + 1) := by omega
      obtain ⟨w, hw, ht⟩ := hlines.along (Page.has_openLine ho') hle hlast
      refine ⟨w, ?_, ht⟩
      rw [Page.chain_eq hv hhas ho', if_pos rfl]
      exact hw
  · rename_i hnext
    cases hrest
    refine ⟨line, [], o', id, hp, rfl, hbare.1, nofun, hbare.2, ?_⟩
    intro o o' id hhas ho' hdepth hopens
    obtain ⟨v, hv, ht⟩ := markup_along hg hm hs level' hline fun _ ↦ hopens
    refine ⟨v, ?_, ht⟩
    rw [Page.chain_eq hv hhas ho', if_neg hnext]
    rfl

end Link

end Pug

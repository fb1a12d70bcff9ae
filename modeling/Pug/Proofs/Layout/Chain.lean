import Pug.Proofs.Layout.Inner
import Pug.Proofs.Layout.Outline
import Pug.Proofs.Token.Shift

/-!
# Chains of lines

The lines that follow one another on one line of a template form a *chain*: each lies under what
the one before it says. `Token.nest` is the tree of a chain, with further trees under its innermost
line, and `Token.graft` puts trees under the innermost line of a tree that is already there.

In an outline a chain is a run of entries. Folding an outline folds chain by chain.
-/

namespace Pug

open Outline

variable {E : Type}

namespace Token

/-- The innermost line of a tree whose lines form a chain: the last that is reached from the top. -/
def innermost? (t : Token E) : Option (Token E) :=
  (t.preorder.filter fun u ↦ u.kind = .line).getLast?

mutual

/-- Puts trees behind all that stands in the innermost line of a tree. -/
def graft (nested : List (Token E)) : Token E → Token E
  | ⟨kind, text, span, expr, children⟩ =>
    ⟨kind, text, span, expr,
      if lineDepthBelow children = 0 then children ++ nested else graftAll nested children⟩

/-- Puts trees under the innermost line of those trees that have a line. -/
def graftAll (nested : List (Token E)) : List (Token E) → List (Token E)
  | [] => []
  | t :: ts => (if t.lineDepth = 0 then t else graft nested t) :: graftAll nested ts

end

/-- The tree of a chain, with further trees under its innermost line. -/
def nest (nested : List (Token E)) : Token E → List (Token E) → Token E
  | line, [] => extend line nested
  | line, next :: followers => Entry.close ⟨line, 0, .payload⟩ [nest nested next followers]

section Graft

variable {nested ts us : List (Token E)} {t u line : Token E}

theorem extend_nil (t : Token E) : extend t [] = t := by
  cases t
  simp [extend]

theorem graft_eq (t : Token E) : graft nested t = t.withChildren
    (if lineDepthBelow t.children = 0 then t.children ++ nested else graftAll nested t.children) := by
  cases t
  rw [graft, withChildren]

theorem graftAll_of_inner (h : ∀ t ∈ ts, t.IsInner) : graftAll nested ts = ts := by
  induction ts with
  | nil => rw [graftAll]
  | cons t ts ih =>
    have ht : t.lineDepth = 0 := h t (List.mem_cons_self ..)
    rw [graftAll, if_pos ht, ih fun u hu ↦ h u (List.mem_cons_of_mem _ hu)]

theorem graftAll_append (ts us : List (Token E)) :
    graftAll nested (ts ++ us) = graftAll nested ts ++ graftAll nested us := by
  induction ts with
  | nil => rw [graftAll, List.nil_append, List.nil_append]
  | cons t ts ih => rw [List.cons_append, graftAll, graftAll, ih, List.cons_append]

/-- Among inner tokens and one with a line, the line is the one that is grafted on. -/
theorem graftAll_of_line (hts : ∀ t ∈ ts, t.IsInner) (ht : t.lineDepth ≠ 0)
    (hus : ∀ u ∈ us, u.IsInner) :
    graftAll nested (ts ++ t :: us) = ts ++ graft nested t :: us := by
  rw [graftAll_append, graftAll_of_inner hts, graftAll, if_neg ht, graftAll_of_inner hus]

theorem lineDepthBelow_of_line (ht : t.lineDepth ≠ 0) : lineDepthBelow (ts ++ t :: us) ≠ 0 := by
  rw [lineDepthBelow_append, lineDepthBelow_cons]
  omega

/-- Grafting on a tree with one child that has a line. -/
theorem graft_of_line {s : Token E} (hs : s.children = ts ++ t :: us) (hts : ∀ t ∈ ts, t.IsInner)
    (ht : t.lineDepth ≠ 0) (hus : ∀ u ∈ us, u.IsInner) :
    graft nested s = s.withChildren (ts ++ graft nested t :: us) := by
  rw [graft_eq, hs, if_neg (lineDepthBelow_of_line ht), graftAll_of_line hts ht hus]

theorem graft_of_head {s : Token E} (hs : s.children = t :: us) (ht : t.lineDepth ≠ 0)
    (hus : ∀ u ∈ us, u.IsInner) : graft nested s = s.withChildren (graft nested t :: us) :=
  graft_of_line (show s.children = [] ++ t :: us from hs) nofun ht hus

theorem graft_extend (hc : ∀ t ∈ line.children, t.IsInner) (ht : t.lineDepth ≠ 0) :
    graft nested (extend line [t]) = extend line [graft nested t] :=
  graft_of_line rfl hc ht nofun

/-- A line above another one adds to the depth. -/
theorem lineDepth_le {t u : Token E} (h : u ∈ t.children) :
    u.lineDepth + (if t.kind = .line then 1 else 0) ≤ t.lineDepth := by
  rw [lineDepth_eq t]
  exact Nat.add_le_add_right (lineDepth_le_of_mem h) _

theorem lineDepth_le_extend (t u : Token E) : u.lineDepth ≤ (extend t [u]).lineDepth :=
  Nat.le_trans (Nat.le_add_right _ _) (lineDepth_le (List.mem_append_right _ (.head _)))

theorem lineDepth_le_extendPayload (t u : Token E) :
    u.lineDepth ≤ (extendPayload t [u]).lineDepth := by
  unfold extendPayload
  split
  · rename_i tag others _ _
    refine Nat.le_trans (lineDepth_le_extend tag u) ?_
    exact Nat.le_trans (Nat.le_add_right _ _) (lineDepth_le (List.mem_cons_self ..))
  · exact lineDepth_le_extend t u

theorem graft_extendPayload (ht : t.IsInner) (hu : u.lineDepth ≠ 0) :
    graft nested (extendPayload t [u]) = extendPayload t [graft nested u] := by
  have hchildren := (isInner_iff.1 ht).2
  unfold extendPayload
  split
  · rename_i tag others _ hc
    rw [hc, List.forall_mem_cons] at hchildren
    have htag := (isInner_iff.1 hchildren.1).2
    have hdepth : (extend tag [u]).lineDepth ≠ 0 := by
      have := lineDepth_le_extend tag u
      omega
    rw [← graft_extend htag hu]
    exact graft_of_head rfl hdepth hchildren.2
  · exact graft_extend hchildren hu

/-- What stands in a line that another one follows. -/
theorem close_payload (hc : line.children = t :: ts) (us : List (Token E)) :
    Entry.close ⟨line, 0, .payload⟩ us = line.withChildren (extendPayload t us :: ts) := by
  unfold Entry.close
  rw [hc]
  rfl

theorem graft_close (hline : ∀ t ∈ line.children, t.IsInner) (hu : u.lineDepth ≠ 0) :
    graft nested (Entry.close ⟨line, 0, .payload⟩ [u]) =
      Entry.close ⟨line, 0, .payload⟩ [graft nested u] := by
  cases hc : line.children with
  | nil =>
    unfold Entry.close
    rw [hc]
    exact graft_extend hline hu
  | cons t ts =>
    rw [hc, List.forall_mem_cons] at hline
    have hdepth : (extendPayload t [u]).lineDepth ≠ 0 := by
      have := lineDepth_le_extendPayload t u
      omega
    rw [close_payload hc, close_payload hc, ← graft_extendPayload hline.1 hu]
    exact graft_of_head rfl hdepth hline.2

theorem lineDepth_close (hline : line.kind = .line) :
    u.lineDepth + 1 ≤ (Entry.close ⟨line, 0, .payload⟩ [u]).lineDepth := by
  cases hc : line.children with
  | nil =>
    unfold Entry.close
    rw [hc]
    have hmem : u ∈ (extend line [u]).children := List.mem_append_right _ (.head _)
    have := lineDepth_le hmem
    rwa [if_pos (show (extend line [u]).kind = .line from hline)] at this
  | cons t ts =>
    rw [close_payload hc]
    have hmem : extendPayload t [u] ∈ (line.withChildren (extendPayload t [u] :: ts)).children :=
      List.mem_cons_self ..
    have := lineDepth_le hmem
    rw [if_pos (show (line.withChildren _).kind = .line from hline)] at this
    exact Nat.le_trans (Nat.add_le_add_right (lineDepth_le_extendPayload t u) 1) this

end Graft

section Nest

variable {nested followers : List (Token E)} {line : Token E}

/-- A chain is at least as deep as it is long. -/
theorem length_lt_lineDepth_nest (hline : Line.IsBare line) (hf : ∀ t ∈ followers, Line.IsBare t) :
    followers.length < (nest nested line followers).lineDepth := by
  induction followers generalizing line with
  | nil =>
    rw [nest, lineDepth_eq]
    simp [extend, hline.kind]
  | cons next followers ih =>
    rw [List.forall_mem_cons] at hf
    have hdepth := ih hf.1 hf.2
    have hclose := lineDepth_close (u := nest nested next followers) hline.kind
    rw [nest, List.length_cons]
    omega

/-- Grafting on a chain puts trees under its innermost line. -/
theorem graft_nest (hline : Line.IsBare line) (hf : ∀ t ∈ followers, Line.IsBare t) :
    graft nested (nest [] line followers) = nest nested line followers := by
  induction followers generalizing line with
  | nil =>
    rw [nest, nest, graft_eq]
    simp [extend, withChildren, lineDepthBelow_eq_zero.2 hline.inner]
  | cons next followers ih =>
    rw [List.forall_mem_cons] at hf
    have hdepth : followers.length < (nest [] next followers).lineDepth :=
      length_lt_lineDepth_nest hf.1 hf.2
    rw [nest, nest, graft_close hline.inner (by omega), ih hf.1 hf.2]

end Nest

section Innermost

/-- The lines of some trees, in preorder. -/
def linesAll (ts : List (Token E)) : List (Token E) :=
  (preorderAll ts).filter fun u ↦ u.kind = .line

theorem linesAll_append (ts us : List (Token E)) : linesAll (ts ++ us) = linesAll ts ++ linesAll us := by
  rw [linesAll, preorderAll_append, List.filter_append]
  rfl

theorem linesAll_cons (t : Token E) (ts : List (Token E)) :
    linesAll (t :: ts) = (if t.kind = .line then [t] else []) ++ linesAll t.children ++ linesAll ts := by
  rw [linesAll, preorderAll_cons, List.filter_cons, List.filter_append]
  split <;> simp_all [linesAll]

mutual

theorem linesAll_children_of_inner : ∀ t : Token E, t.IsInner → linesAll t.children = []
  | ⟨_, _, _, _, children⟩, h => linesAll_of_inner children (isInner_iff.1 h).2

theorem linesAll_of_inner : ∀ ts : List (Token E), (∀ t ∈ ts, t.IsInner) → linesAll ts = []
  | [], _ => rfl
  | t :: ts, h => by
    rw [List.forall_mem_cons] at h
    rw [linesAll_cons, if_neg (isInner_iff.1 h.1).1, linesAll_children_of_inner t h.1,
      linesAll_of_inner ts h.2]
    rfl

end

/-- A row of lines that nothing lies under yet. -/
theorem linesAll_of_isBare {ts : List (Token E)} (h : ∀ t ∈ ts, Line.IsBare t) : linesAll ts = ts := by
  induction ts with
  | nil => rfl
  | cons t ts ih =>
    rw [List.forall_mem_cons] at h
    rw [linesAll_cons, if_pos h.1.kind, linesAll_of_inner _ h.1.inner, ih h.2]
    rfl

theorem linesAll_extend {t : Token E} (h : ∀ u ∈ t.children, u.IsInner) (us : List (Token E)) :
    linesAll (extend t us).children = linesAll us := by
  rw [extend, linesAll_append, linesAll_of_inner _ h, List.nil_append]

theorem linesAll_extendPayload {t : Token E} (h : t.IsInner) (us : List (Token E)) :
    linesAll (extendPayload t us).children = linesAll us := by
  have hchildren := (isInner_iff.1 h).2
  unfold extendPayload
  split
  · rename_i tag others _ hc
    rw [hc, List.forall_mem_cons] at hchildren
    have htag := isInner_iff.1 hchildren.1
    rw [linesAll_cons, linesAll_extend htag.2, linesAll_of_inner _ hchildren.2,
      if_neg (show (extend tag us).kind ≠ .line from htag.1)]
    simp
  · exact linesAll_extend hchildren us

theorem linesAll_close {line : Token E} (h : ∀ u ∈ line.children, u.IsInner) (us : List (Token E)) :
    linesAll (Entry.close ⟨line, 0, .payload⟩ us).children = linesAll us := by
  cases hc : line.children with
  | nil =>
    unfold Entry.close
    rw [hc]
    exact linesAll_extend h us
  | cons t ts =>
    rw [hc, List.forall_mem_cons] at h
    have hk : (extendPayload t us).kind = t.kind := by
      unfold extendPayload
      split <;> rfl
    rw [close_payload hc]
    simp only [withChildren]
    rw [linesAll_cons, linesAll_extendPayload h.1, linesAll_of_inner _ h.2, hk,
      if_neg (isInner_iff.1 h.1).1]
    simp

theorem innermost_eq (t : Token E) : t.innermost? = (linesAll [t]).getLast? := by
  rw [innermost?, linesAll, preorderAll_cons, preorder_eq, preorderAll_nil, List.append_nil]

/-- The innermost line of a chain is its last. -/
theorem innermost_nest {line : Token E} {followers : List (Token E)} (hline : Line.IsBare line)
    (hf : ∀ t ∈ followers, Line.IsBare t) :
    (nest [] line followers).innermost? = some (followers.getLastD line) := by
  induction followers generalizing line with
  | nil =>
    rw [nest, extend_nil, innermost_eq, linesAll_cons, if_pos hline.kind, linesAll_of_inner _ hline.inner]
    rfl
  | cons next followers ih =>
    rw [List.forall_mem_cons] at hf
    have hnext := ih hf.1 hf.2
    rw [innermost_eq] at hnext
    rw [nest, innermost_eq, linesAll_cons, linesAll_close hline.inner, List.getLast?_append,
      List.getLast?_append, hnext, List.getLastD_cons]
    rfl

end Innermost

section Shift

variable {k : Nat}

theorem shift_extend (t : Token E) (ts : List (Token E)) :
    (extend t ts).shift k = extend (t.shift k) (shiftAll k ts) := by
  rw [shift_eq, shift_eq]
  simp [extend]

theorem shift_extendPayload (t : Token E) (ts : List (Token E)) :
    (extendPayload t ts).shift k = extendPayload (t.shift k) (shiftAll k ts) := by
  obtain ⟨kind, text, span, expr, children⟩ := t
  by_cases hk : kind = .lineData
  · subst hk
    cases children with
    | nil =>
      have h := shift_extend (k := k) ⟨.lineData, text, span, expr, []⟩ ts
      rw [shift, shiftAll_nil] at h ⊢
      exact h
    | cons tag others =>
      rw [shift, shiftAll_cons]
      unfold extendPayload
      dsimp only
      rw [shift, shiftAll_cons, shift_extend]
  · have h := shift_extend (k := k) ⟨kind, text, span, expr, children⟩ ts
    have hp : ∀ (u : Token E) us, u.kind = kind → extendPayload u us = extend u us := by
      rintro u us rfl
      unfold extendPayload
      split
      · contradiction
      · rfl
    rw [hp _ _ rfl, hp _ _ (kind_shift _)]
    exact h

theorem shift_close (line : Token E) (ts : List (Token E)) :
    (Entry.close ⟨line, 0, .payload⟩ ts).shift k =
      Entry.close ⟨line.shift k, 0, .payload⟩ (shiftAll k ts) := by
  cases hc : line.children with
  | nil =>
    have hs : (line.shift k).children = [] := by rw [children_shift, hc, shiftAll_nil]
    unfold Entry.close
    rw [hc, hs]
    exact shift_extend line ts
  | cons payload others =>
    have hs : (line.shift k).children = payload.shift k :: shiftAll k others := by
      rw [children_shift, hc, shiftAll_cons]
    rw [close_payload hc, close_payload hs, shift_withChildren, shiftAll_cons, shift_extendPayload]

mutual

theorem lineDepth_shift : ∀ t : Token E, (t.shift k).lineDepth = t.lineDepth
  | ⟨_, _, _, _, children⟩ => by
    rw [lineDepth_eq, children_shift, kind_shift, lineDepthBelow_shiftAll children]
    rw [lineDepth]

theorem lineDepthBelow_shiftAll :
    ∀ ts : List (Token E), lineDepthBelow (shiftAll k ts) = lineDepthBelow ts
  | [] => by rw [shiftAll_nil]
  | t :: ts => by
    rw [shiftAll_cons, lineDepthBelow_cons, lineDepthBelow_cons, lineDepth_shift t,
      lineDepthBelow_shiftAll ts]

end

theorem isBare_shift {line : Token E} (h : Line.IsBare line) : Line.IsBare (line.shift k) where
  kind := by
    rw [kind_shift]
    exact h.kind
  inner := by
    rw [children_shift, ← lineDepthBelow_eq_zero, lineDepthBelow_shiftAll, lineDepthBelow_eq_zero]
    exact h.inner

theorem isBare_shiftAll {ts : List (Token E)} (h : ∀ t ∈ ts, Line.IsBare t) :
    ∀ t ∈ shiftAll k ts, Line.IsBare t := by
  induction ts with
  | nil =>
    rw [shiftAll_nil]
    nofun
  | cons t ts ih =>
    rw [List.forall_mem_cons] at h
    rw [shiftAll_cons, List.forall_mem_cons]
    exact ⟨isBare_shift h.1, ih h.2⟩

/-- A chain in another place. -/
theorem shift_nest (nested : List (Token E)) (line : Token E) (followers : List (Token E)) :
    (nest nested line followers).shift k =
      nest (shiftAll k nested) (line.shift k) (shiftAll k followers) := by
  induction followers generalizing line with
  | nil => rw [nest, shiftAll_nil, nest, shift_extend]
  | cons next followers ih =>
    rw [nest, shiftAll_cons, nest, ← ih next, shift_close, shiftAll_cons, shiftAll_nil]

end Shift

end Token

end Pug

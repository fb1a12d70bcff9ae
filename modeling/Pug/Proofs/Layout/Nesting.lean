import Pug.Proofs.Grammar.Depth
import Pug.Proofs.Layout.Verbatim

/-!
# How deep a tree nests

A *path* leads from the whole template down to a line over the lines that it lies under, and the
deepest line of the tree stands at the end of the longest path. What bounds the paths is not the number
of levels alone: a chain of lines takes over a level, and the next level starts under the last line of
the chain. But a chain that starts further in is the shorter for it. So each open line keeps *room* for
the lines that may still come under it, and every line that is read takes no more than there is.
-/

namespace Pug

open Text Token Reader Outline

variable {σ E : Type}

namespace Token

/-- The number of lines that may lie under one another where `n` levels are left: a chain of `n`, and
those that lie under its last; where no level is left, one line of text. -/
def room : Nat → Nat
  | 0 => 1
  | n + 1 => n + 1 + room n

theorem room_pos (n : Nat) : 0 < room n := by
  induction n with
  | zero => exact Nat.one_pos
  | succ n ih => exact Nat.add_pos_right _ ih

theorem room_eq (n : Nat) : room n = n * (n + 1) / 2 + 1 := by
  induction n with
  | zero => rfl
  | succ n ih =>
    have hprod : (n + 1) * (n + 1 + 1) = n * (n + 1) + (n + 1) * 2 := by ring
    rw [room, ih, hprod, Nat.add_mul_div_right _ _ Nat.two_pos]
    omega

theorem lineDepthBelow_le {n : Nat} {ts : List (Token E)} :
    lineDepthBelow ts ≤ n ↔ ∀ t ∈ ts, t.lineDepth ≤ n := by
  induction ts with
  | nil => simp
  | cons t ts ih => rw [lineDepthBelow_cons, Nat.max_le, List.forall_mem_cons, ih]

end Token

namespace Outline

variable {o o' : Outline E} {id m n : Nat} {line t : Token E} {lines ts : List (Token E)}

section Close

theorem lineDepth_extend (h : t.IsInner) (ts : List (Token E)) :
    (extend t ts).lineDepth = lineDepthBelow ts := by
  rw [isInner_iff] at h
  rw [lineDepth_eq, extend, lineDepthBelow_append, lineDepthBelow_eq_zero.2 h.2, if_neg h.1]
  omega

theorem lineDepth_extendPayload (h : t.IsInner) (ts : List (Token E)) :
    (extendPayload t ts).lineDepth = lineDepthBelow ts := by
  unfold extendPayload
  split
  · rename_i tag others hkind hchildren
    have hinner := (isInner_iff.1 h).2
    rw [hchildren, List.forall_mem_cons] at hinner
    rw [lineDepth_eq, lineDepthBelow_cons, lineDepth_extend hinner.1,
      lineDepthBelow_eq_zero.2 hinner.2, if_neg (isInner_iff.1 h).1]
    omega
  · exact lineDepth_extend h ts

/-- A line is one line deeper than what is put under it. -/
theorem lineDepth_close {e : Entry E} (h : Line.IsBare e.token) (ts : List (Token E)) :
    (e.close ts).lineDepth = lineDepthBelow ts + 1 := by
  obtain ⟨hkind, hinner⟩ := h
  unfold Entry.close
  split
  · rename_i payload others _ hchildren
    rw [hchildren, List.forall_mem_cons] at hinner
    rw [lineDepth_eq, lineDepthBelow_cons, lineDepth_extendPayload hinner.1,
      lineDepthBelow_eq_zero.2 hinner.2, if_pos hkind]
    omega
  · rw [lineDepth_eq, extend, lineDepthBelow_append, lineDepthBelow_eq_zero.2 hinner, if_pos hkind]
    omega

theorem depth_extend (t : Token E) (ts : List (Token E)) :
    (extend t ts).depth = max t.depth (depthBelow ts) := by
  rw [depth_eq, depth_eq t, extend, depthBelow_append]

theorem depth_extendPayload_le (t : Token E) (ts : List (Token E)) :
    (extendPayload t ts).depth ≤ max t.depth (depthBelow ts + 1) := by
  unfold extendPayload
  split
  · rename_i tag others hkind hchildren
    rw [depth_eq, depth_eq t, hchildren, depthBelow_cons, depthBelow_cons, depth_extend]
    omega
  · rw [depth_extend]
    omega

/-- What is put under a line goes into the tag that it says, two levels below it, or further up. -/
theorem depth_close_le (e : Entry E) (ts : List (Token E)) :
    (e.close ts).depth ≤ max e.token.depth (depthBelow ts + 2) := by
  unfold Entry.close
  split
  · rename_i payload others _ hchildren
    have hpayload := depth_extendPayload_le payload ts
    rw [depth_eq, depth_eq e.token, hchildren, depthBelow_cons, depthBelow_cons]
    omega
  · rw [depth_extend]
    omega

end Close

/-- A path of so many lines leads from the whole template down to a line. -/
inductive LinePath (o : Outline E) : Nat → Nat → Prop where
  | template : LinePath o 0 0
  | line {x : Entry E × Nat} {n : Nat} (hx : x ∈ o.numbered) (h : LinePath o x.1.parent n) :
    LinePath o x.2 (n + 1)

namespace LinePath

theorem eq_zero (h : LinePath o 0 n) : n = 0 := by
  generalize hid : 0 = id at h
  cases h with
  | template => rfl
  | line hx =>
    have hpos := List.le_snd_of_mem_zipIdx hx
    omega

/-- Adding lines to an outline leaves the paths there are. -/
theorem mono (h : LinePath o id n) (hsub : o.numbered ⊆ o'.numbered) : LinePath o' id n := by
  induction h with
  | template => exact .template
  | line hx _ ih => exact .line (hsub hx) ih

theorem le_size (h : LinePath o id n) : id ≤ o.entries.size := by
  cases h with
  | template => exact Nat.zero_le _
  | line hx => exact le_of_mem_numbered hx

/-- What a chain adds are the paths to its lines, each one longer than the one before. -/
theorem of_chain {parent : Nat} (h : LinePath o' id n) (ho : Ordered o)
    (hparent : parent ≤ o.entries.size) (he : o'.entries.toList = o.entries.toList ++
      chainEntries parent (o.entries.size + 1) line lines) :
    LinePath o id n ∨ ∃ k n₀, k ≤ lines.length ∧ id = o.entries.size + 1 + k ∧ n = n₀ + k + 1 ∧
      LinePath o parent n₀ := by
  induction h with
  | template => exact .inl .template
  | @line x n hx _ ih =>
    rw [numbered_eq he, List.mem_append] at hx
    rcases hx with hx | hx
    · rcases ih with ih | ⟨k, n₀, -, hid, -⟩
      · exact .inl (.line hx ih)
      · have hlt := ho.parents x hx
        have hle := le_of_mem_numbered hx
        dsimp only [LineId] at hlt
        omega
    · right
      obtain ⟨k, htoken, hid, hx, -⟩ := mem_zipIdx_chainEntries hx
      have hk : k ≤ lines.length :=
        Nat.lt_succ_iff.1 (List.getElem?_eq_some_iff.1 htoken).1
      refine ⟨k, ?_⟩
      rcases ih with ih | ⟨k', n₀, -, hid', hn, ih⟩
      · have hle := ih.le_size
        obtain rfl : k = 0 := by
          by_contra hpos
          rw [hx, if_neg hpos] at hle
          omega
        rw [hx, if_pos rfl] at ih
        exact ⟨n, hk, hid, rfl, ih⟩
      · have hpos : k ≠ 0 := by
          rintro rfl
          rw [hx, if_pos rfl] at hid'
          omega
        rw [hx, if_neg hpos] at hid'
        exact ⟨n₀, hk, hid, by omega, ih⟩

/-- A path leads on over the lines of a chain. -/
theorem along {parent first : Nat} (h : LinePath o parent n)
    (hsub : (chainEntries parent first line lines).zipIdx first ⊆ o.numbered) :
    LinePath o (first + lines.length) (n + 1 + lines.length) := by
  induction lines generalizing parent first line n with
  | nil => exact .line (x := (⟨line, parent, .line⟩, first)) (hsub (List.mem_singleton_self _)) h
  | cons next lines ih =>
    rw [chainEntries, List.zipIdx_cons, List.cons_subset] at hsub
    have hnext : LinePath o first (n + 1) := .line (x := (⟨line, parent, .payload⟩, first)) hsub.1 h
    rw [List.length_cons, ← Nat.add_assoc, ← Nat.add_assoc, Nat.add_right_comm first,
      Nat.add_right_comm (n + 1)]
    exact ih hnext hsub.2

end LinePath

section Finish

/-- The lines below a line go on the paths to it. -/
theorem le_lineDepth_finish (hp : ∀ x ∈ o.numbered, (x.1.parent : Nat) < x.2)
    (hbare : ∀ x ∈ o.numbered, Line.IsBare x.1.token) (h : LinePath o id n) :
    n ≤ o.finish.lineDepth := by
  have hbelow : n + lineDepthBelow (o.nested id) ≤ lineDepthBelow (o.nested 0) := by
    induction h with
    | template => exact Nat.le_of_eq (Nat.zero_add _)
    | @line x n hx _ ih =>
      have hmem : x.1.close (o.nested x.2) ∈ o.nested x.1.parent := by
        rw [nested_eq hp x.1.parent]
        exact List.mem_map_of_mem (List.mem_filter.2 ⟨hx, decide_eq_true rfl⟩)
      have hle := lineDepth_le_of_mem hmem
      rw [lineDepth_close (hbare x hx)] at hle
      omega
  rw [lineDepth_eq, children_finish_eq]
  omega

/-- What holds of the trees below a line, if it holds of those below each line under it, holds of those
below the whole template. It may speak of the length of the path. -/
theorem nested_induction {P : Nat → List (Token E) → Prop}
    (hp : ∀ x ∈ o.numbered, (x.1.parent : Nat) < x.2)
    (h : ∀ id n, LinePath o id n → (∀ y ∈ o.numbered, y.1.parent = id → LinePath o y.2 (n + 1) →
      P (n + 1) (o.nested y.2)) → P n (o.nested id)) : P 0 (o.nested 0) := by
  have hlines : ∀ x ∈ o.numbered, ∀ n, LinePath o x.2 n → P n (o.nested x.2) :=
    forall_nested (P := fun x ↦ ∀ n, LinePath o x.2 n → P n (o.nested x.2)) hp
      fun x hx hrec n hn ↦ h x.2 n hn fun y hy hparent hpath ↦ hrec y hy hparent (n + 1) hpath
  exact h 0 0 .template fun y hy _ hpath ↦ hlines y hy 1 hpath

/-- What stands below a line are the lines under it, each with what stands below it. -/
theorem exists_of_mem_nested (hp : ∀ x ∈ o.numbered, (x.1.parent : Nat) < x.2)
    (ht : t ∈ o.nested id) : ∃ y ∈ o.numbered, y.1.parent = id ∧ t = y.1.close (o.nested y.2) := by
  rw [nested_eq hp] at ht
  obtain ⟨y, hy, rfl⟩ := List.mem_map.1 ht
  obtain ⟨hmem, hparent⟩ := List.mem_filter.1 hy
  exact ⟨y, hmem, of_decide_eq_true hparent, rfl⟩

/-- No line of the tree is deeper than the paths are long. -/
theorem lineDepth_finish_le (hp : ∀ x ∈ o.numbered, (x.1.parent : Nat) < x.2)
    (hbare : ∀ x ∈ o.numbered, Line.IsBare x.1.token) (h : ∀ id n, LinePath o id n → n ≤ m) :
    o.finish.lineDepth ≤ m := by
  have hbelow : 0 + lineDepthBelow (o.nested 0) ≤ m := by
    refine nested_induction (P := fun n ts ↦ n + lineDepthBelow ts ≤ m) hp fun id n hid hrec ↦ ?_
    have hle := h id n hid
    have hall : lineDepthBelow (o.nested id) ≤ m - n := by
      refine lineDepthBelow_le.2 fun t ht ↦ ?_
      obtain ⟨y, hy, rfl, rfl⟩ := exists_of_mem_nested hp ht
      have hy' := hrec y hy rfl (.line hy hid)
      rw [lineDepth_close (hbare y hy)]
      omega
    omega
  rw [lineDepth_eq, children_finish_eq, if_neg (show o.finish.kind ≠ .line by rintro ⟨⟩)]
  omega

/-- Nor is any token deeper than three times as much, and what stands in a line. -/
theorem depth_finish_le {k : Nat} (hp : ∀ x ∈ o.numbered, (x.1.parent : Nat) < x.2)
    (hwithin : ∀ x ∈ o.numbered, x.1.token.Within (k + 2)) (h : ∀ id n, LinePath o id n → n ≤ m) :
    o.finish.depth ≤ 3 * m + k := by
  have hbelow : depthBelow (o.nested 0) ≤ 3 * (m - 0) + k := by
    refine nested_induction (P := fun n ts ↦ depthBelow ts ≤ 3 * (m - n) + k) hp
      fun id n hid hrec ↦ depthBelow_le.2 fun t ht ↦ ?_
    obtain ⟨y, hy, rfl, rfl⟩ := exists_of_mem_nested hp ht
    have hpath : LinePath o y.2 (n + 1) := .line hy hid
    have hle := h y.2 (n + 1) hpath
    have hy' := hrec y hy rfl hpath
    have hclose := depth_close_le y.1 (o.nested y.2)
    have htoken : y.1.token.depth ≤ k + 2 := hwithin y hy
    omega
  rw [depth_eq, children_finish_eq]
  exact hbelow

end Finish

end Outline

namespace Page

variable {g : Setup σ E} {p q : Page E} {s t : ReadState σ} {m : Nat}

/-- The lines on the paths to an open line, and those that there is room for below it, are no more than
there is room for in the whole template. -/
structure Roomy (m : Nat) (p : Page E) : Prop where
  ordered : p.Ordered
  maxDepth : p.outline.maxDepth = m
  path_le : ∀ id n, LinePath p.outline id n → n ≤ room m
  openLines : ∀ i id n, p.outline.openLines[i]? = some id → LinePath p.outline id n →
    n + room (m - (i + 1)) ≤ room m

namespace Roomy

theorem empty (m : Nat) : Roomy m (.empty m : Page E) where
  ordered := .empty m
  maxDepth := rfl
  path_le id n h := by
    cases h with
    | template => exact Nat.zero_le _
    | line hx => contradiction
  openLines i id n hid := by contradiction

/-- There is room under the line that a line at a level lies under. -/
theorem parentAt (h : Roomy m p) {level n : Nat} (hlevel : level ≤ p.outline.openLines.length)
    (hpath : LinePath p.outline (p.outline.parentAt level) n) : n + room (m - level) ≤ room m := by
  cases level with
  | zero =>
    obtain rfl := hpath.eq_zero
    rw [Nat.zero_add]
    exact Nat.le_refl _
  | succ level =>
    have hid : p.outline.openLines[level]? = some (p.outline.parentAt (level + 1)) := by
      rw [Outline.parentAt, List.getD_eq_getElem?_getD, List.getElem?_eq_getElem hlevel]
      rfl
    exact h.openLines level _ n hid hpath

/-- There is room for the lines of a chain and for those below its last. -/
theorem length_add_room {level length : Nat} (hlevel : level < m) (h : length ≤ m - (level + 1)) :
    length + 1 + room (m - (level + 1)) ≤ room (m - level) := by
  have hsucc : m - level = m - (level + 1) + 1 := by omega
  rw [hsucc, room]
  exact Nat.add_le_add_right (Nat.succ_le_succ h) _

/-- A path to a line that was open before a chain was added was there. -/
theorem path_of_mem (h : Roomy m p) {o : Outline E} {parent id n : Nat} {line : Token E}
    {lines : List (Token E)} (hparent : parent ≤ p.outline.entries.size)
    (he : o.entries.toList = p.outline.entries.toList ++
      chainEntries parent (p.outline.entries.size + 1) line lines)
    (hid : id ∈ p.outline.openLines) (hpath : LinePath o id n) : LinePath p.outline id n := by
  have hle := (h.ordered.outline.bounds id hid).2
  rcases hpath.of_chain h.ordered.outline hparent he with hold | ⟨k, n₀, -, hnew, -⟩
  · exact hold
  · dsimp only [LineId] at hle
    omega

/-- A line of the template takes no more room than there is. -/
theorem step (h : Roomy m p) (hg : g.maxDepth = m) (hstep : Step g p s q t) : Roomy m q := by
  have hordered := hstep.ordered h.ordered
  have hmax := hstep.maxDepth_eq.trans h.maxDepth
  cases hstep with
  | blank => exact h
  | @text block margin line t _ htakes =>
    have hblock := (front_of_takes htakes).1
    have hentries : (p.outline.append block.owner line).1.entries.toList =
        p.outline.entries.toList ++ chainEntries block.owner (p.outline.entries.size + 1) line [] :=
      Array.toList_push ..
    obtain ⟨hlast, hlength⟩ := h.ordered.verbatim block hblock
    have hbound := (h.ordered.bounds_owner hblock).2
    refine ⟨hordered, hmax, fun id n hpath ↦ ?_, fun i id n hid hpath ↦ ?_⟩
    · rcases hpath.of_chain h.ordered.outline hbound hentries with hold | ⟨k, n₀, hk, -, rfl, hfirst⟩
      · exact h.path_le id n hold
      · rw [List.getLast?_eq_getElem?] at hlast
        have hle := h.openLines _ _ n₀ hlast hfirst
        have hpos := room_pos (m - (p.outline.openLines.length - 1 + 1))
        rw [Nat.le_zero.1 hk]
        omega
    · exact h.openLines i id n hid (h.path_of_mem hbound hentries (List.mem_of_getElem? hid) hpath)
  | @markup level line lines o owner tail t _ _ _ hopens =>
    obtain ⟨hentries, hopen, -, rfl, hcheck⟩ := hopens.outline
    have hparent := h.ordered.outline.parentAt_le level
    have hlevel : level < m := by
      unfold checkLevel at hcheck
      rw [h.maxDepth] at hcheck
      by_contra hle
      rw [if_pos (Nat.not_lt.1 hle)] at hcheck
      contradiction
    have hroom := length_add_room hlevel (hg ▸ hopens.length_le)
    refine ⟨hordered, hmax, fun id n hpath ↦ ?_, fun i id n hid hpath ↦ ?_⟩
    · rcases hpath.of_chain h.ordered.outline hparent hentries with
        hold | ⟨k, n₀, hk, -, rfl, hfirst⟩
      · exact h.path_le id n hold
      · have hle := h.parentAt hopens.level_le hfirst
        omega
    · dsimp only at hid hpath
      rw [hopen] at hid
      by_cases hi : i < level
      · rw [List.getElem?_append_left (by simpa using ⟨hi, Nat.lt_of_lt_of_le hi hopens.level_le⟩),
          List.getElem?_take_of_lt hi] at hid
        exact h.openLines i id n hid (h.path_of_mem hparent hentries (List.mem_of_getElem? hid) hpath)
      · have hlength : (p.outline.openLines.take level).length = level := by
          rw [List.length_take, Nat.min_eq_left hopens.level_le]
        rw [List.getElem?_append_right (by omega), hlength] at hid
        obtain ⟨hlt, rfl⟩ := List.getElem?_eq_some_iff.1 hid
        obtain rfl : i = level := by
          rw [List.length_singleton] at hlt
          omega
        rcases hpath.of_chain h.ordered.outline hparent hentries with
          hold | ⟨k, n₀, hk, hlast, rfl, hfirst⟩
        · have hle := hold.le_size
          simp only [Nat.sub_self, List.getElem_cons_zero] at hle
          omega
        · have hle := h.parentAt hopens.level_le hfirst
          omega

end Roomy

end Page

section Template

variable {parser : ExpressionParser σ E} {maxDepth : Nat} {source : List Char} {x : σ}

/-- The paths of an outline that is read are no longer than there is room for. -/
theorem roomy_of_readLines {page : Page E} {t : ReadState σ}
    (h : readLines parser maxDepth source x = .ok page t) : Page.Roomy maxDepth page :=
  (Page.lines_induction (I := fun page (_ : ReadState σ) ↦ Page.Roomy maxDepth page)
    (fun hp hstep ↦ hp.step rfl hstep) (.empty maxDepth)).2 page t h

/-- The lines of an outline that is read hold no lines of their own. -/
theorem Page.isBare_of_readLines {page : Page E} {t : ReadState σ}
    (h : readLines parser maxDepth source x = .ok page t) :
    ∀ y ∈ page.outline.numbered, Line.IsBare y.1.token := by
  have hruled := isRuled_of_course (Page.course_of_lines h) fun y hy ↦ by contradiction
  exact fun y hy ↦ (hruled y hy).isBare

/-- A tree nests no deeper than the number of levels that are accepted allows, however long the template
is. -/
theorem finish_le {page : Page E} {t : ReadState σ}
    (h : readLines parser maxDepth source x = .ok page t) :
    page.outline.finish.lineDepth ≤ room maxDepth ∧
      page.outline.finish.depth ≤ 3 * room maxDepth + (3 * maxDepth + 2) := by
  have hcourse := Page.course_of_lines h
  have hroomy := roomy_of_readLines h
  have hparents := hroomy.ordered.outline.parents
  have hbare := Page.isBare_of_readLines h
  constructor
  · exact lineDepth_finish_le hparents hbare hroomy.path_le
  · refine depth_finish_le hparents ?_ hroomy.path_le
    refine hcourse.forall_token Line.markup_within Line.verbatim_within fun y hy ↦ ?_
    contradiction

end Template

end Pug

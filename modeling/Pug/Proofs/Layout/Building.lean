import Pug.Proofs.Layout.PlainTree

/-!
# Building an outline builds a plain tree

Lines can be added to an outline in three ways: opened at a level, as what follows a line on the same line
of the template, or under a line without touching the levels. Beside it stands a plain tree that is built
by the same steps: what a line lies under is told by all that has been added before, and the line is added
to the tree in its place. The outline keeps no more than the open lines, one for each level, and lets the
others go; this module shows that it comes to the same tree all the same.
-/

namespace Pug

open Outline Token

variable {E : Type}

/-- How a line is added to an outline. -/
inductive Placing where
  /-- As a line at a level. -/
  | opened (level : Nat)
  /-- As what follows a line on the same line of the template. -/
  | expanded (owner : Nat)
  /-- Under a line. -/
  | appended (owner : Nat)
deriving DecidableEq, Repr

namespace Placing

/-- The deepest level at which the next line may be opened, when lines have been added in these ways, the
latest first: one more than that of the latest line that was opened. -/
def deepest : List Placing → Nat
  | [] => 0
  | opened level :: _ => level + 1
  | _ :: earlier => deepest earlier

/-- The latest line that was opened at a level. -/
def latest (level : Nat) : List Placing → Nat
  | [] => 0
  | p :: earlier => if p = opened level then earlier.length + 1 else latest level earlier

/-- The last of the lines that follow a line on the same line of the template, one the other. -/
def innermost (owner : Nat) : List Placing → Nat
  | [] => owner
  | p :: earlier =>
    if p = expanded (innermost owner earlier) then earlier.length + 1 else innermost owner earlier

/-- The latest line that was opened or that follows another one. -/
def newest : List Placing → Option Nat
  | [] => none
  | appended _ :: earlier => newest earlier
  | _ :: earlier => some (earlier.length + 1)

/-- The line that the next one lies under. -/
def parent (earlier : List Placing) : Placing → Nat
  | opened 0 => 0
  | opened (level + 1) => innermost (latest level earlier) earlier
  | expanded owner => owner
  | appended owner => owner

/-- The lines that the lines so far lie under. -/
def parents : List Placing → List Nat
  | [] => []
  | p :: earlier => parent earlier p :: parents earlier

theorem innermost_cons_of_ne {owner : Nat} {p : Placing} {ps : List Placing} (h : ∀ n, p ≠ expanded n) :
    innermost owner (p :: ps) = innermost owner ps :=
  if_neg (h _)

/-- A line that none follows is the last itself. -/
theorem innermost_of_absent {owner : Nat} {ps : List Placing} (h : expanded owner ∉ ps) :
    innermost owner ps = owner := by
  induction ps with
  | nil => rfl
  | cons p earlier ih =>
    rw [List.mem_cons, not_or] at h
    rw [innermost, ih h.2, if_neg (Ne.symm h.1)]

end Placing

open Placing

/-- A plain tree that is being built. -/
structure Plain (E : Type) where
  /-- The lines that have been added, the latest first. -/
  added : List (Placing × Token E)
  /-- The trees at the outermost level. -/
  trees : List (Rose E)

namespace Plain

/-- Nothing has been added. -/
def empty : Plain E := ⟨[], []⟩

/-- How the lines have been added, the latest first. -/
def placings (p : Plain E) : List Placing :=
  p.added.map Prod.fst

/-- The lines with their numbers, in the order in which they were added. -/
def numbered (p : Plain E) : List (Token E × Nat) :=
  (p.added.reverse.map Prod.snd).zipIdx 1

theorem numbered_cons (p : Plain E) (placing : Placing) (line : Token E) (trees : List (Rose E)) :
    numbered ⟨(placing, line) :: p.added, trees⟩ = p.numbered ++ [(line, p.added.length + 1)] := by
  rw [numbered, List.reverse_cons, List.map_append, List.zipIdx_append, List.length_map,
    List.length_reverse, Nat.add_comm 1]
  rfl

/-- Each line has a number of its own. -/
theorem countP_numbered (p : Plain E) {n : Nat} (hpos : 0 < n) (hle : n ≤ p.added.length) :
    p.numbered.countP (·.2 = n) = 1 := by
  have hids : p.numbered.map Prod.snd = List.range' 1 p.added.length := by
    rw [numbered, List.zipIdx_map_snd, List.length_map, List.length_reverse]
  have hcount : p.numbered.countP (·.2 = n) = (p.numbered.map Prod.snd).count n := by
    rw [List.count, List.countP_map]
    rfl
  rw [hcount, hids]
  exact List.count_eq_one_of_mem List.nodup_range' (List.mem_range'_1.2 ⟨hpos, by omega⟩)

/-- Adds a line in its place. -/
def add (p : Plain E) (placing : Placing) (line : Token E) : Plain E :=
  let new := Rose.node (p.added.length + 1) line [] []
  let owner := parent p.placings placing
  ⟨(placing, line) :: p.added,
    match placing with
    | .opened 0 => p.trees ++ [new]
    | .expanded _ => Rose.updateAll owner (Rose.addInside new) p.trees
    | _ => Rose.updateAll owner (Rose.addBelow new) p.trees⟩

/-- A line may close any number of levels but open one at most, and no more levels than there may be. -/
def accepts (maxDepth : Nat) (p : Plain E) : Placing → Bool
  | .opened level => level < maxDepth && level ≤ deepest p.placings
  | _ => true

/-- Adds a line if it is accepted. -/
def step (maxDepth : Nat) (p : Plain E) (op : Placing × Token E) : Plain E :=
  if p.accepts maxDepth op.1 then p.add op.1 op.2 else p

/-- The ways in which a line can be added: it may follow the latest line that was opened or that follows
another one, unless lines are nested in that one, and it may be appended to any line that none follows. -/
def Allows (p : Plain E) : Placing → Prop
  | .opened _ => True
  | .expanded owner => newest p.placings = some owner ∧ owner ∉ parents p.placings
  | .appended owner => 0 < owner ∧ owner ≤ p.added.length ∧ .expanded owner ∉ p.placings

instance (p : Plain E) : (placing : Placing) → Decidable (p.Allows placing)
  | .opened _ => inferInstanceAs (Decidable True)
  | .expanded owner =>
    inferInstanceAs (Decidable (newest p.placings = some owner ∧ owner ∉ parents p.placings))
  | .appended owner =>
    inferInstanceAs (Decidable (0 < owner ∧ owner ≤ p.added.length ∧ .expanded owner ∉ p.placings))

/-- Each line is added in a way in which it can be. -/
def Orderly (maxDepth : Nat) : Plain E → List (Placing × Token E) → Prop
  | _, [] => True
  | p, op :: ops => p.Allows op.1 ∧ Orderly maxDepth (p.step maxDepth op) ops

instance (maxDepth : Nat) :
    (p : Plain E) → (ops : List (Placing × Token E)) → Decidable (Orderly maxDepth p ops)
  | _, [] => inferInstanceAs (Decidable True)
  | p, op :: ops =>
    have : Decidable (Orderly maxDepth (p.step maxDepth op) ops) := instDecidableOrderly maxDepth _ ops
    inferInstanceAs (Decidable (p.Allows op.1 ∧ Orderly maxDepth (p.step maxDepth op) ops))

end Plain

namespace Outline

/-- Adds a line to an outline. If it cannot be opened at its level, the outline stays. -/
def place (o : Outline E) (op : Placing × Token E) : Outline E :=
  match op.1 with
  | .opened level =>
    match o.openLine level op.2 with
    | .ok (o', _) => o'
    | .error _ => o
  | .expanded owner => (o.expand owner op.2).1
  | .appended owner => (o.append owner op.2).1

/-- An outline and a plain tree that have been built by the same steps. -/
structure Refines (o : Outline E) (p : Plain E) : Prop where
  ordered : o.Ordered
  size : o.entries.size = p.added.length
  parents : o.parents = (Placing.parents p.placings).reverse
  /-- What lies under a line goes under what it says if a line follows it. -/
  attach : ∀ x ∈ o.numbered, x.1.attach = .payload → .expanded x.2 ∈ p.placings
  /-- A line that another one follows is not open. -/
  closed : ∀ x ∈ o.numbered, x.1.attach = .payload → x.2 ∉ o.openLines
  owners : ∀ owner, .expanded owner ∈ p.placings → owner ≤ p.added.length
  /-- The open line of a level is what follows last the latest line that was opened at the level. -/
  openLines : o.openLines = (List.range (deepest p.placings)).map fun level ↦
    innermost (latest level p.placings) p.placings
  newest : o.openLines.getLast? = Placing.newest p.placings
  trees : Rose.forest o.numbered 0 = p.trees
  labels : (Rose.labelsAll p.trees).Perm p.numbered

namespace Refines

variable {o : Outline E} {p : Plain E} {level owner : Nat} {line : Token E}

theorem empty (maxDepth : Nat) : Refines (.empty maxDepth : Outline E) .empty where
  ordered := .empty maxDepth
  size := rfl
  parents := rfl
  attach := nofun
  closed := nofun
  owners := nofun
  openLines := rfl
  newest := rfl
  trees := rfl
  labels := .refl _

theorem length_openLines (h : Refines o p) : o.openLines.length = deepest p.placings := by
  rw [h.openLines, List.length_map, List.length_range]

/-- The outline puts a line that is opened under the one that the plain tree does. -/
theorem parentAt (h : Refines o p) (hlevel : level ≤ deepest p.placings) :
    o.parentAt level = parent p.placings (.opened level) := by
  cases level with
  | zero => rfl
  | succ level =>
    rw [Outline.parentAt, List.getD_eq_getElem?_getD, h.openLines, List.getElem?_map,
      List.getElem?_range hlevel]
    rfl

/-- What holds of the open lines holds of the line that a new one is opened under, if it is none of the
whole template. -/
theorem parentAt_mem (h : Refines o p) (hlevel : level ≤ deepest p.placings) (hne : level ≠ 0) :
    o.parentAt level ∈ o.openLines := by
  cases level with
  | zero => contradiction
  | succ level =>
    have hlt : level < o.openLines.length := h.length_openLines ▸ hlevel
    rw [Outline.parentAt, List.getD_eq_getElem?_getD, List.getElem?_eq_getElem hlt]
    exact List.getElem_mem hlt

/-- What lies under the line that a new one is opened under goes behind it. -/
theorem attach_parentAt (h : Refines o p) (hlevel : level ≤ deepest p.placings) :
    ∀ x ∈ o.numbered, x.2 = o.parentAt level → x.1.attach = .line := by
  intro x hx heq
  cases hattach : x.1.attach with
  | line => rfl
  | payload =>
    have hpos : 0 < x.2 := List.le_snd_of_mem_zipIdx hx
    have hne : level ≠ 0 := by
      rintro rfl
      exact Nat.ne_of_gt hpos heq
    exact absurd (heq ▸ h.parentAt_mem hlevel hne) (h.closed x hx hattach)

/-- A line that is added behind another one is a tree more behind that. -/
theorem trees_add (h : Refines o p) (howner : ∀ x ∈ o.numbered, x.2 = owner → x.1.attach = .line) :
    Rose.forest (o.add owner line).1.numbered 0 =
      if owner = 0 then p.trees ++ [.node (p.added.length + 1) line [] []]
      else Rose.updateAll owner (Rose.addBelow (.node (p.added.length + 1) line [] [])) p.trees := by
  have hconcat := Rose.forest_concat (x := (⟨line, owner, .line⟩, o.entries.size + 1))
    (f := Rose.addBelow (.node (o.entries.size + 1) line [] [])) (fun e ↦ e) o.pairwise_numbered
    h.ordered.parents (fun _ ↦ ⟨rfl, rfl⟩) (fun _ _ _ ↦ rfl) (fun e he heq ↦ ?_) 0
  · rw [List.map_id'] at hconcat
    rw [← h.trees, ← h.size]
    exact (congrArg (Rose.forest · 0) (numbered_append o owner line)).trans hconcat
  · unfold Rose.ofEntry
    rw [howner e he heq]
    rfl

/-- A line that is added to a line of the tree is there once more. -/
theorem labels_add (h : Refines o p) (hpos : 0 < owner) (hle : owner ≤ p.added.length)
    {f : Rose E → Rose E} (hf : ∀ t, (f t).labels.Perm ((line, p.added.length + 1) :: t.labels))
    (placing : Placing) (trees : List (Rose E)) :
    (Rose.labelsAll (Rose.updateAll owner f p.trees)).Perm
      (Plain.numbered ⟨(placing, line) :: p.added, trees⟩) := by
  rw [Plain.numbered_cons]
  refine (Rose.labelsAll_updateAll hf p.trees).trans ?_
  rw [h.labels.countP_eq, p.countP_numbered hpos hle]
  exact (h.labels.cons _).trans (List.perm_append_singleton ..).symm

/-- What is added behind another line makes nothing go under what a line says. -/
theorem attach_add (h : Refines o p) (placing : Placing) :
    ∀ x ∈ (o.add owner line).1.numbered, x.1.attach = .payload →
      x ∈ o.numbered ∧ .expanded x.2 ∈ placing :: p.placings := by
  intro x hx hattach
  rw [show (o.add owner line).1.numbered = _ from numbered_append o owner line, List.mem_append,
    List.mem_singleton] at hx
  rcases hx with hx | rfl
  · exact ⟨hx, List.mem_cons_of_mem _ (h.attach x hx hattach)⟩
  · contradiction

/-- Opening a line keeps the outline beside the plain tree. -/
theorem opened (h : Refines o p) (hlevel : level ≤ deepest p.placings) :
    Refines { (o.add (o.parentAt level) line).1 with
      openLines := o.openLines.take level ++ [o.entries.size + 1] } (p.add (.opened level) line) where
  ordered := by
    have hentries : (o.add (o.parentAt level) line).1.entries.toList = o.entries.toList ++
        chainEntries (o.parentAt level) (o.entries.size + 1) line [] := Array.toList_push ..
    exact h.ordered.chain hentries rfl
  size := by
    rw [size_add, h.size]
    rfl
  parents := by
    have hparents : (o.add (o.parentAt level) line).1.parents = o.parents ++ [o.parentAt level] :=
      parents_add ..
    refine hparents.trans ?_
    rw [h.parents, h.parentAt hlevel]
    exact List.reverse_cons.symm
  attach := fun x hx hattach ↦ (h.attach_add (.opened level) x hx hattach).2
  closed := by
    intro x hx hattach hmem
    obtain ⟨hold, -⟩ := h.attach_add (.opened level) x hx hattach
    rcases List.mem_append.1 hmem with hmem | hmem
    · exact h.closed x hold hattach (List.mem_of_mem_take hmem)
    · have hle := le_of_mem_numbered hold
      rw [List.mem_singleton.1 hmem] at hle
      exact Nat.not_succ_le_self _ hle
  owners := by
    intro owner howner
    rcases List.mem_cons.1 howner with heq | howner
    · contradiction
    · exact Nat.le_succ_of_le (h.owners owner howner)
  openLines := by
    have hnone : Placing.expanded (p.added.length + 1) ∉ p.placings := fun hmem ↦
      Nat.not_succ_le_self _ (h.owners _ hmem)
    have hplacings : (p.add (.opened level) line).placings = .opened level :: p.placings := rfl
    have hlast : latest level (.opened level :: p.placings) = p.added.length + 1 := by
      rw [latest, if_pos rfl, Plain.placings, List.length_map]
    rw [hplacings, deepest, List.range_succ, List.map_append, List.map_singleton, hlast,
      innermost_cons_of_ne (by rintro _ ⟨⟩), innermost_of_absent hnone, h.size]
    refine congrArg (· ++ [_]) ?_
    rw [h.openLines, ← List.map_take, List.take_range, Nat.min_eq_left hlevel]
    refine List.map_congr_left fun l hl ↦ ?_
    have hne : Placing.opened level ≠ .opened l := fun heq ↦
      Nat.ne_of_gt (List.mem_range.1 hl) (Placing.opened.inj heq)
    rw [latest, if_neg hne, innermost_cons_of_ne (by rintro _ ⟨⟩)]
  newest := by
    have hnewest : Placing.newest (p.add (.opened level) line).placings = some (p.placings.length + 1) :=
      rfl
    rw [List.getLast?_concat, hnewest, h.size, Plain.placings, List.length_map]
  trees := by
    refine (h.trees_add (h.attach_parentAt hlevel)).trans ?_
    cases level with
    | zero => rfl
    | succ level =>
      have hbounds := h.ordered.bounds _ (h.parentAt_mem hlevel (Nat.succ_ne_zero level))
      rw [if_neg (Nat.ne_of_gt hbounds.1), h.parentAt hlevel]
      rfl
  labels := by
    cases level with
    | zero =>
      rw [Plain.add, Plain.numbered_cons]
      exact (List.Perm.of_eq Rose.labelsAll_append).trans (h.labels.append_right _)
    | succ level =>
      have hbounds := h.ordered.bounds _ (h.parentAt_mem hlevel (Nat.succ_ne_zero level))
      rw [h.parentAt hlevel, h.size] at hbounds
      exact h.labels_add hbounds.1 hbounds.2 (fun t ↦ Rose.labels_addBelow t _) _ _

/-- Appending a line keeps the outline beside the plain tree. -/
theorem appended (h : Refines o p) (hallows : p.Allows (.appended owner)) :
    Refines (o.append owner line).1 (p.add (.appended owner) line) where
  ordered := h.ordered.append (h.size ▸ hallows.2.1) line
  size := by
    rw [Outline.append, size_add, h.size]
    rfl
  parents := by
    refine (parents_add ..).trans ?_
    rw [h.parents]
    exact List.reverse_cons.symm
  attach := fun x hx hattach ↦ (h.attach_add (.appended owner) x hx hattach).2
  closed := fun x hx hattach ↦ h.closed x (h.attach_add (.appended owner) x hx hattach).1 hattach
  owners := by
    intro owner howner
    rcases List.mem_cons.1 howner with heq | howner
    · contradiction
    · exact Nat.le_succ_of_le (h.owners owner howner)
  openLines := by
    have hplacings : (p.add (.appended owner) line).placings = .appended owner :: p.placings := rfl
    have hdeepest : deepest (.appended owner :: p.placings) = deepest p.placings := rfl
    rw [hplacings, hdeepest]
    refine h.openLines.trans (List.map_congr_left fun l _ ↦ ?_)
    have hlatest : latest l (.appended owner :: p.placings) = latest l p.placings := if_neg (by rintro ⟨⟩)
    rw [hlatest, innermost_cons_of_ne (by rintro _ ⟨⟩)]
  newest := h.newest
  trees := by
    refine (h.trees_add fun x hx heq ↦ ?_).trans (if_neg (Nat.ne_of_gt hallows.1))
    cases hattach : x.1.attach with
    | line => rfl
    | payload => exact absurd (heq ▸ h.attach x hx hattach) hallows.2.2
  labels := h.labels_add hallows.1 hallows.2.1 (fun t ↦ Rose.labels_addBelow t _) _ _

/-- What an outline has of a line that another one follows. -/
def mark (owner : Nat) (x : Entry E × Nat) : Entry E × Nat :=
  if x.2 = owner then ({ x.1 with attach := .payload }, x.2) else x

theorem mark_of_eq {x : Entry E × Nat} (h : x.2 = owner) :
    mark owner x = ({ x.1 with attach := .payload }, x.2) :=
  if_pos h

theorem mark_of_ne {x : Entry E × Nat} (h : x.2 ≠ owner) : mark owner x = x :=
  if_neg h

theorem parent_mark (owner : Nat) (x : Entry E × Nat) :
    (mark owner x).1.parent = x.1.parent ∧ (mark owner x).2 = x.2 := by
  by_cases h : x.2 = owner
  · rw [mark_of_eq h]
    exact ⟨rfl, rfl⟩
  · rw [mark_of_ne h]
    exact ⟨rfl, rfl⟩

/-- A change of one entry is a change where its number stands. -/
theorem zipIdx_modify (es : List (Entry E)) (n first : Nat) (f : Entry E → Entry E) :
    (es.modify n f).zipIdx first =
      (es.zipIdx first).map fun x ↦ if x.2 = first + n then (f x.1, x.2) else x := by
  apply List.ext_getElem
  · simp
  · intro i hi hi'
    simp only [List.getElem_zipIdx, List.getElem_modify, List.getElem_map, Nat.add_left_cancel_iff]
    by_cases h : n = i
    · rw [if_pos h, if_pos h.symm]
    · rw [if_neg h, if_neg (Ne.symm h)]

theorem numbered_expand (o : Outline E) (hpos : 0 < owner) (hle : owner ≤ o.entries.size)
    (line : Token E) : (o.expand owner line).1.numbered =
      o.numbered.map (mark owner) ++ [(⟨line, owner, .line⟩, o.entries.size + 1)] := by
  obtain ⟨n, rfl⟩ := Nat.exists_eq_succ_of_ne_zero (Nat.ne_of_gt hpos)
  have hentries : (o.expand (n + 1) line).1.entries.toList =
      (o.entries.toList ++ [(⟨line, n + 1, .line⟩ : Entry E)]).modify n
        fun e ↦ { e with attach := .payload } := by
    rw [← Array.toList_push, ← Array.toList_modify]
    rfl
  have hmark : (fun x : Entry E × Nat ↦
      if x.2 = 1 + n then ({ x.1 with attach := Attach.payload }, x.2) else x) = mark (n + 1) := by
    funext x
    rw [Nat.add_comm 1 n]
    rfl
  have hne : o.entries.size + 1 ≠ n + 1 := Nat.ne_of_gt (Nat.lt_succ_of_le hle)
  rw [numbered, hentries, zipIdx_modify, hmark, List.zipIdx_append, List.map_append,
    Array.length_toList, Nat.add_comm 1, List.zipIdx_singleton, List.map_singleton, mark_of_ne hne]
  rfl

/-- What lies under a line that may be followed goes behind it, and so far nothing does. -/
theorem attach_newest (h : Refines o p) (hallows : p.Allows (.expanded owner)) :
    (∀ x ∈ o.numbered, x.2 = owner → x.1.attach = .line) ∧ ∀ x ∈ o.numbered, x.1.parent ≠ owner := by
  have hmem : owner ∈ o.openLines := List.mem_of_getLast? (h.newest.trans hallows.1)
  constructor
  · intro x hx heq
    cases hattach : x.1.attach with
    | line => rfl
    | payload => exact absurd (heq ▸ hmem) (h.closed x hx hattach)
  · intro x hx heq
    have hparent : x.1.parent ∈ o.parents :=
      List.mem_map_of_mem (List.fst_mem_of_mem_zipIdx hx)
    rw [h.parents, List.mem_reverse, heq] at hparent
    exact hallows.2 hparent

/-- The open lines, when a line follows the innermost one. -/
theorem openLines_expand (h : Refines o p) (hallows : p.Allows (.expanded owner)) (line : Token E) :
    (o.expand owner line).1.openLines = o.openLines.dropLast ++ [o.entries.size + 1] ∧
      o.openLines = o.openLines.dropLast ++ [owner] := by
  have hlast : o.openLines.getLast? = some owner := h.newest.trans hallows.1
  constructor
  · exact if_pos hlast
  · exact (List.dropLast_append_getLast? owner hlast).symm

/-- A line that follows the innermost open one keeps the order. -/
theorem ordered_expand (h : o.Ordered) (hlast : o.openLines = o.openLines.dropLast ++ [owner])
    (hopen : (o.expand owner line).1.openLines = o.openLines.dropLast ++ [o.entries.size + 1]) :
    (o.expand owner line).1.Ordered := by
  have hbounds := h.bounds
  have hpairwise := h.openLines
  rw [hlast, List.forall_mem_append, List.forall_mem_singleton] at hbounds
  rw [hlast, List.pairwise_append] at hpairwise
  obtain ⟨hopens, hpos, hle⟩ := hbounds
  have hsize : (o.expand owner line).1.entries.size = o.entries.size + 1 :=
    (size_attachToPayload ..).trans (size_add ..)
  refine ⟨?_, ?_, ?_⟩
  · rw [numbered_expand o hpos hle, List.forall_mem_append, List.forall_mem_map,
      List.forall_mem_singleton]
    refine ⟨fun x hx ↦ ?_, Nat.lt_succ_of_le hle⟩
    rw [(parent_mark owner x).1, (parent_mark owner x).2]
    exact h.parents x hx
  · rw [hopen, List.pairwise_append]
    refine ⟨hpairwise.1, List.pairwise_singleton .., fun id hid next hnext ↦ ?_⟩
    rw [List.mem_singleton.1 hnext]
    exact Nat.lt_succ_of_le (hopens id hid).2
  · rw [hopen, hsize, List.forall_mem_append, List.forall_mem_singleton]
    exact ⟨fun id hid ↦ ⟨(hopens id hid).1, Nat.le_succ_of_le (hopens id hid).2⟩,
      Nat.succ_pos _, Nat.le_refl _⟩

/-- The open lines but the innermost one come before it. -/
theorem lt_of_mem_dropLast (h : o.Ordered) (hlast : o.openLines = o.openLines.dropLast ++ [owner]) :
    ∀ id ∈ o.openLines.dropLast, id < owner := by
  have hpairwise := h.openLines
  rw [hlast, List.pairwise_append] at hpairwise
  exact fun id hid ↦ hpairwise.2.2 id hid owner (List.mem_singleton_self owner)

/-- A line that follows the innermost one takes over its level, and no other. -/
theorem map_innermost_expanded (h : Refines o p)
    (hlast : o.openLines = o.openLines.dropLast ++ [owner]) :
    ((List.range (deepest p.placings)).map fun level ↦
      innermost (latest level p.placings) (.expanded owner :: p.placings)) =
        o.openLines.dropLast ++ [o.entries.size + 1] := by
  have hothers : ∀ l, innermost (latest l p.placings) p.placings ∈ o.openLines.dropLast →
      innermost (latest l p.placings) (.expanded owner :: p.placings) =
        innermost (latest l p.placings) p.placings := by
    intro l hl
    exact if_neg fun heq ↦
      Nat.ne_of_gt (lt_of_mem_dropLast h.ordered hlast _ hl) (Placing.expanded.inj heq)
  obtain ⟨k, hk⟩ : ∃ k, deepest p.placings = k + 1 := by
    refine Nat.exists_eq_succ_of_ne_zero fun hzero ↦ ?_
    rw [← h.length_openLines, hlast, List.length_append] at hzero
    exact Nat.succ_ne_zero _ hzero
  have hlevels := h.openLines
  rw [hk, List.range_succ, List.map_append, List.map_singleton, hlast] at hlevels
  obtain ⟨hdrop, howner⟩ := List.append_inj' hlevels rfl
  have hfollowed : innermost (latest k p.placings) (.expanded owner :: p.placings) =
      o.entries.size + 1 := by
    rw [innermost, ← List.singleton_inj.1 howner, if_pos rfl, h.size, Plain.placings, List.length_map]
  rw [hk, List.range_succ, List.map_append, List.map_singleton, hfollowed, hdrop]
  refine congrArg (· ++ [_]) (List.map_congr_left fun l hl ↦ hothers l ?_)
  rw [hdrop]
  exact List.mem_map_of_mem hl

/-- Following a line keeps the outline beside the plain tree. -/
theorem expanded (h : Refines o p) (hallows : p.Allows (.expanded owner)) :
    Refines (o.expand owner line).1 (p.add (.expanded owner) line) := by
  obtain ⟨hopen, hlast⟩ := h.openLines_expand hallows line
  obtain ⟨hline, hnone⟩ := h.attach_newest hallows
  have hmem : owner ∈ o.openLines := hlast ▸ List.mem_append_right _ (List.mem_singleton_self owner)
  obtain ⟨hpos, hle⟩ := h.ordered.bounds owner hmem
  have hnumbered := numbered_expand o hpos hle line
  have hold : ∀ x ∈ (o.expand owner line).1.numbered, x.1.attach = .payload →
      ∃ e ∈ o.numbered, mark owner e = x := by
    intro x hx hattach
    rw [hnumbered, List.mem_append, List.mem_singleton] at hx
    rcases hx with hx | rfl
    · exact List.mem_map.1 hx
    · contradiction
  refine ⟨?ordered, ?size, ?parents, ?attach, ?closed, ?owners, ?openLines, ?newest, ?trees, ?labels⟩
  case ordered =>
    exact ordered_expand h.ordered hlast hopen
  case size =>
    refine (size_attachToPayload ..).trans ((size_add ..).trans ?_)
    rw [h.size]
    rfl
  case parents =>
    refine (parents_expand ..).trans ?_
    rw [h.parents]
    exact List.reverse_cons.symm
  case attach =>
    intro x hx hattach
    obtain ⟨e, he, rfl⟩ := hold x hx hattach
    rw [(parent_mark owner e).2]
    by_cases heq : e.2 = owner
    · exact heq ▸ List.mem_cons_self ..
    · rw [mark_of_ne heq] at hattach
      exact List.mem_cons_of_mem _ (h.attach e he hattach)
  case closed =>
    intro x hx hattach hmem
    obtain ⟨e, he, rfl⟩ := hold x hx hattach
    have hne : e.2 ≠ o.entries.size + 1 := Nat.ne_of_lt (Nat.lt_succ_of_le (le_of_mem_numbered he))
    rw [(parent_mark owner e).2, hopen, List.mem_append, List.mem_singleton, or_iff_left hne] at hmem
    by_cases heq : e.2 = owner
    · exact Nat.lt_irrefl _ (heq ▸ lt_of_mem_dropLast h.ordered hlast e.2 hmem)
    · rw [mark_of_ne heq] at hattach
      exact h.closed e he hattach (List.mem_of_mem_dropLast hmem)
  case owners =>
    intro n hn
    rcases List.mem_cons.1 hn with heq | hn
    · obtain rfl := Placing.expanded.inj heq
      exact Nat.le_succ_of_le (h.size ▸ hle)
    · exact Nat.le_succ_of_le (h.owners n hn)
  case openLines =>
    have hplacings : (p.add (.expanded owner) line).placings = .expanded owner :: p.placings := rfl
    have hdeepest : deepest (.expanded owner :: p.placings) = deepest p.placings := rfl
    have hlatest (l : Nat) : latest l (.expanded owner :: p.placings) = latest l p.placings :=
      if_neg (by rintro ⟨⟩)
    rw [hplacings, hdeepest, hopen]
    simp only [hlatest]
    exact (h.map_innermost_expanded hlast).symm
  case newest =>
    have hnewest : Placing.newest (p.add (.expanded owner) line).placings =
        some (p.placings.length + 1) := rfl
    rw [hopen, List.getLast?_concat, hnewest, h.size, Plain.placings, List.length_map]
  case trees =>
    have hconcat := Rose.forest_concat (x := (⟨line, owner, .line⟩, o.entries.size + 1))
      (f := Rose.addInside (.node (o.entries.size + 1) line [] [])) (mark owner) o.pairwise_numbered
      h.ordered.parents (parent_mark owner) (fun e _ ↦ mark_of_ne) (fun e he heq ↦ ?_) 0
    · rw [← hnumbered, if_neg (Nat.ne_of_gt hpos)] at hconcat
      rw [hconcat, h.trees, h.size]
      rfl
    · have hnil : Rose.forest o.numbered e.2 = [] := Rose.forest_eq_nil (heq ▸ hnone)
      have hattach := hline e he heq
      rw [hnil, mark_of_eq heq]
      unfold Rose.ofEntry
      rw [hattach]
      rfl
  case labels =>
    exact h.labels_add hpos (h.size ▸ hle) (fun t ↦ Rose.labels_addInside t _) _ _

/-- Whether a line can be opened is told by its level and that of the latest line that was opened. -/
theorem openLine_eq (h : Refines o p) (level : Nat) (line : Token E) :
    (o.maxDepth ≤ level → o.openLine level line = .error .indentationTooDeep) ∧
      (level < o.maxDepth → deepest p.placings < level →
        o.openLine level line = .error .invalidIndentationJump) ∧
      (level < o.maxDepth → level ≤ deepest p.placings → o.openLine level line =
        .ok ({ (o.add (o.parentAt level) line).1 with
          openLines := o.openLines.take level ++ [o.entries.size + 1] }, p.added.length + 1)) := by
  unfold openLine checkLevel
  rw [h.length_openLines, ← h.size]
  refine ⟨fun hdeep ↦ ?_, fun hlevel hjump ↦ ?_, fun hlevel hle ↦ ?_⟩
  · rw [if_pos hdeep]
  · rw [if_neg (Nat.not_le_of_gt hlevel), if_pos hjump]
  · rw [if_neg (Nat.not_le_of_gt hlevel), if_neg (Nat.not_lt_of_ge hle)]
    rfl

/-- A line that is added in a way in which it can be keeps the outline beside the plain tree. -/
theorem place (h : Refines o p) (op : Placing × Token E) (hallows : p.Allows op.1) :
    Refines (o.place op) (p.step o.maxDepth op) ∧ (o.place op).maxDepth = o.maxDepth := by
  obtain ⟨placing, line⟩ := op
  cases placing with
  | opened level =>
    obtain ⟨hdeep, hjump, hopen⟩ := h.openLine_eq level line
    unfold Outline.place Plain.step Plain.accepts
    dsimp only
    by_cases hlevel : level < o.maxDepth
    · by_cases hle : level ≤ deepest p.placings
      · rw [hopen hlevel hle, if_pos (by simp [hlevel, hle])]
        exact ⟨h.opened hle, rfl⟩
      · rw [hjump hlevel (Nat.lt_of_not_le hle), if_neg (by simp [hle])]
        exact ⟨h, rfl⟩
    · rw [hdeep (Nat.le_of_not_lt hlevel), if_neg (by simp [hlevel])]
      exact ⟨h, rfl⟩
  | expanded owner => exact ⟨h.expanded hallows, rfl⟩
  | appended owner => exact ⟨h.appended hallows, rfl⟩

/-- So do all lines that are added, one after the other. -/
theorem foldl_place (h : Refines o p) (ops : List (Placing × Token E))
    (hops : Plain.Orderly o.maxDepth p ops) :
    Refines (ops.foldl Outline.place o) (ops.foldl (Plain.step o.maxDepth) p) ∧
      (ops.foldl Outline.place o).maxDepth = o.maxDepth := by
  induction ops generalizing o p with
  | nil => exact ⟨h, rfl⟩
  | cons op ops ih =>
    obtain ⟨hstep, hmax⟩ := h.place op hops.1
    have hrest := ih hstep (hmax.symm ▸ hops.2)
    rw [hmax] at hrest
    exact hrest

/-- The tree of the outline is the plain tree. -/
theorem finish_eq (h : Refines o p) :
    o.finish = ⟨.root, "", ⟨0, 0⟩, none, Rose.closeAll p.trees⟩ := by
  rw [← h.trees, Rose.closeAll_forest h.ordered.parents]
  rfl

end Refines

/-- However many lines are opened, follow one another and are appended, the outline tells as the plain tree
does whether the next line can be opened at a level, and stays if it cannot. In the end its tree is the
plain tree, in which each line that was added stands once, and lines under one line stand in the order in
which they were added. -/
theorem foldl_place_refines (maxDepth : Nat) (ops : List (Placing × Token E))
    (h : Plain.Orderly maxDepth .empty ops) :
    let o := ops.foldl place (.empty maxDepth)
    let p := ops.foldl (Plain.step maxDepth) .empty
    (∀ level line,
      (maxDepth ≤ level → o.openLine level line = .error .indentationTooDeep ∧
        o.place (.opened level, line) = o) ∧
      (level < maxDepth → deepest p.placings < level →
        o.openLine level line = .error .invalidIndentationJump ∧
          o.place (.opened level, line) = o) ∧
      (level < maxDepth → level ≤ deepest p.placings →
        o.openLine level line = .ok (o.place (.opened level, line), p.added.length + 1))) ∧
    (∀ owner line, (o.expand owner line).2 = p.added.length + 1 ∧
      (o.append owner line).2 = p.added.length + 1) ∧
    o.finish = ⟨.root, "", ⟨0, 0⟩, none, Rose.closeAll p.trees⟩ ∧
    (Rose.labelsAll p.trees).Perm p.numbered ∧ Rose.RisingAll p.trees := by
  intro o p
  obtain ⟨hrefines, hmax⟩ := (Refines.empty (E := E) maxDepth).foldl_place ops h
  have hrefines : Refines o p := hrefines
  have hmax : o.maxDepth = maxDepth := hmax
  refine ⟨fun level line ↦ ?_, fun _ _ ↦ ?_, hrefines.finish_eq, hrefines.labels, ?_⟩
  · obtain ⟨hdeep, hjump, hopen⟩ := hrefines.openLine_eq level line
    rw [hmax] at hdeep hjump hopen
    refine ⟨fun hl ↦ ⟨hdeep hl, ?_⟩, fun hl hd ↦ ⟨hjump hl hd, ?_⟩, fun hl hd ↦ ?_⟩
    · unfold place
      dsimp only
      rw [hdeep hl]
    · unfold place
      dsimp only
      rw [hjump hl hd]
    · unfold place
      dsimp only
      rw [hopen hl hd]
  · rw [← hrefines.size]
    exact ⟨rfl, rfl⟩
  · rw [← hrefines.trees]
    exact Rose.risingAll_forest o.pairwise_numbered 0

/-- A line nested in one that follows another, one that cannot be opened, and one behind them. -/
theorem foldl_place_refines_followed :
    let ops : List (Placing × Token Unit) := [(.opened 0, leaf .line "li" ⟨0, 2⟩),
      (.expanded 1, leaf .line "a" ⟨4, 5⟩), (.opened 1, leaf .line "b" ⟨8, 9⟩),
      (.opened 2, leaf .line "c" ⟨14, 15⟩), (.appended 3, leaf .line "d" ⟨20, 21⟩),
      (.opened 0, leaf .line "p" ⟨22, 23⟩)]
    let p := ops.foldl (Plain.step 2) .empty
    Plain.Orderly 2 .empty ops ∧
      (ops.foldl place (.empty 2)).finish = ⟨.root, "", ⟨0, 0⟩, none, Rose.closeAll p.trees⟩ ∧
      (Rose.labelsAll p.trees).map (·.1.text) = ["li", "a", "b", "d", "p"] := by
  intro ops p
  have horderly : Plain.Orderly 2 .empty ops := by decide
  obtain ⟨-, -, hfinish, -⟩ := foldl_place_refines 2 ops horderly
  exact ⟨horderly, hfinish, rfl⟩

end Outline

end Pug

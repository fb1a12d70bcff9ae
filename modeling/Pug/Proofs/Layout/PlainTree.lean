import Mathlib.Data.Multiset.Replicate
import Mathlib.Tactic.Abel
import Pug.Proofs.Layout.Chain
import Pug.Proofs.Layout.Tree

/-!
# Plain trees of lines

The tree that an outline stands for has a line in each node, and under it the lines that follow it on the
same line of the template and those that are nested in it. A line is added to such a tree by going down to
the line that it lies under. This module relates the plain trees to the folding of an outline: what the
fold makes is what the plain trees come to, and an entry more is a line more in its place.
-/

namespace Pug

open Outline Token

/-- A line with its number and the lines under it: those inside what it says, and those behind it. -/
inductive Rose (E : Type) where
  | node (id : Nat) (line : Token E) (inside below : List (Rose E))

namespace Rose

variable {E : Type}

/-- The number of the line of a tree. -/
def id : Rose E → Nat
  | node id _ _ _ => id

/-- Puts lines inside what a line says: behind the children of its tag, or of what it says if that is no
wrapped tag, or behind its own if it says nothing. -/
def extendInside (line : Token E) (nested : List (Token E)) : Token E :=
  match line.children with
  | payload :: others => { line with children := extendPayload payload nested :: others }
  | [] => extend line nested

mutual

/-- A tree as a token. -/
def close : Rose E → Token E
  | node _ line inside below => extend (extendInside line (closeAll inside)) (closeAll below)

/-- Some trees as tokens. -/
def closeAll : List (Rose E) → List (Token E)
  | [] => []
  | t :: ts => t.close :: closeAll ts

end

mutual

/-- Changes the trees of the line with a number. -/
def update (n : Nat) (f : Rose E → Rose E) : Rose E → Rose E
  | node id line inside below =>
    if id = n then f (node id line (updateAll n f inside) (updateAll n f below))
    else node id line (updateAll n f inside) (updateAll n f below)

/-- Changes the trees of the line with a number in some trees. -/
def updateAll (n : Nat) (f : Rose E → Rose E) : List (Rose E) → List (Rose E)
  | [] => []
  | t :: ts => t.update n f :: updateAll n f ts

end

/-- Adds a tree behind those inside what a line says. -/
def addInside (new : Rose E) : Rose E → Rose E
  | node id line inside below => node id line (inside ++ [new]) below

/-- Adds a tree behind those behind a line. -/
def addBelow (new : Rose E) : Rose E → Rose E
  | node id line inside below => node id line inside (below ++ [new])

mutual

/-- The lines of a tree with their numbers, each before those under it. -/
def labels : Rose E → List (Token E × Nat)
  | node id line inside below => (line, id) :: (labelsAll inside ++ labelsAll below)

/-- The lines of some trees with their numbers. -/
def labelsAll : List (Rose E) → List (Token E × Nat)
  | [] => []
  | t :: ts => t.labels ++ labelsAll ts

end

mutual

/-- In each row of a tree the numbers rise. -/
def Rising : Rose E → Prop
  | node _ _ inside below => RisingAll inside ∧ RisingAll below

/-- In each row of some trees the numbers rise, and so in the row of the trees. -/
def RisingAll : List (Rose E) → Prop
  | [] => True
  | t :: ts => t.Rising ∧ (∀ u ∈ ts, t.id < u.id) ∧ RisingAll ts

end

variable {n : Nat} {f : Rose E → Rose E} {new : Token E × Nat} {ts us : List (Rose E)}

@[simp] theorem closeAll_append : closeAll (ts ++ us) = closeAll ts ++ closeAll us := by
  induction ts with
  | nil => rfl
  | cons t ts ih => simp only [List.cons_append, closeAll, ih]

@[simp] theorem labelsAll_append : labelsAll (ts ++ us) = labelsAll ts ++ labelsAll us := by
  induction ts with
  | nil => rfl
  | cons t ts ih => simp only [List.cons_append, labelsAll, ih, List.append_assoc]

theorem extendInside_nil (line : Token E) : extendInside line [] = line := by
  obtain ⟨kind, text, span, expr, children⟩ := line
  cases children with
  | nil => rfl
  | cons payload others =>
    have hpayload : extendPayload payload [] = payload := by
      obtain ⟨kind, text, span, expr, children⟩ := payload
      unfold extendPayload
      split
      · rename_i tag others hkind hchildren
        rw [extend_nil, ← hchildren]
      · exact extend_nil _
    unfold extendInside
    dsimp only
    rw [hpayload]

mutual

/-- A tree without a line stays when that line is changed. -/
theorem update_of_absent : ∀ t : Rose E, (∀ y ∈ t.labels, y.2 ≠ n) → t.update n f = t
  | node id line inside below, h => by
    rw [labels, List.forall_mem_cons, List.forall_mem_append] at h
    rw [update, if_neg h.1, updateAll_of_absent inside h.2.1, updateAll_of_absent below h.2.2]

theorem updateAll_of_absent : ∀ ts : List (Rose E), (∀ y ∈ labelsAll ts, y.2 ≠ n) → updateAll n f ts = ts
  | [], _ => rfl
  | t :: ts, h => by
    rw [labelsAll, List.forall_mem_append] at h
    rw [updateAll, update_of_absent t h.1, updateAll_of_absent ts h.2]

end

mutual

/-- Where a line is added, it is there as often as the line that it is added to. -/
theorem labels_update (hf : ∀ t, (f t).labels.Perm (new :: t.labels)) : ∀ t : Rose E,
    (t.update n f).labels.Perm (List.replicate (t.labels.countP (·.2 = n)) new ++ t.labels)
  | node id line inside below => by
    have hrest : (node id line (updateAll n f inside) (updateAll n f below)).labels.Perm
        (List.replicate ((labelsAll inside).countP (·.2 = n) + (labelsAll below).countP (·.2 = n)) new ++
          (node id line inside below).labels) := by
      have hinside := Multiset.coe_eq_coe.2 (labelsAll_updateAll hf inside)
      have hbelow := Multiset.coe_eq_coe.2 (labelsAll_updateAll hf below)
      rw [← Multiset.coe_eq_coe]
      simp only [labels, ← Multiset.cons_coe, ← Multiset.coe_add, List.replicate_add] at *
      rw [hinside, hbelow, Multiset.add_cons]
      congr 1
      abel
    rw [update, labels, List.countP_cons, List.countP_append]
    split
    · rename_i heq
      have hadded := (hf _).trans (hrest.cons new)
      rwa [if_pos (decide_eq_true heq), List.replicate_succ, List.cons_append]
    · rename_i hne
      rwa [if_neg (by simpa using hne), Nat.add_zero]

theorem labelsAll_updateAll (hf : ∀ t, (f t).labels.Perm (new :: t.labels)) : ∀ ts : List (Rose E),
    (labelsAll (updateAll n f ts)).Perm
      (List.replicate ((labelsAll ts).countP (·.2 = n)) new ++ labelsAll ts)
  | [] => .refl _
  | t :: ts => by
    have hfirst := Multiset.coe_eq_coe.2 (labels_update hf t)
    have hrest := Multiset.coe_eq_coe.2 (labelsAll_updateAll hf ts)
    rw [← Multiset.coe_eq_coe]
    simp only [updateAll, labelsAll, List.countP_append, List.replicate_add, ← Multiset.coe_add] at *
    rw [hfirst, hrest]
    abel

end

theorem labels_addInside (t leaf : Rose E) :
    (addInside leaf t).labels.Perm (leaf.labels ++ t.labels) := by
  obtain ⟨id, line, inside, below⟩ := t
  rw [← Multiset.coe_eq_coe]
  simp only [addInside, labels, labelsAll_append, labelsAll, List.append_nil, ← Multiset.cons_coe,
    ← Multiset.coe_add, Multiset.add_cons]
  congr 1
  abel

theorem labels_addBelow (t leaf : Rose E) :
    (addBelow leaf t).labels.Perm (leaf.labels ++ t.labels) := by
  obtain ⟨id, line, inside, below⟩ := t
  rw [← Multiset.coe_eq_coe]
  simp only [addBelow, labels, labelsAll_append, labelsAll, List.append_nil, ← Multiset.cons_coe,
    ← Multiset.coe_add, Multiset.add_cons]
  congr 1
  abel

/-- A line of an outline with the lines under it in their place. -/
def ofEntry (x : Entry E × Nat) (nested : List (Rose E)) : Rose E :=
  match x.1.attach with
  | .line => node x.2 x.1.token [] nested
  | .payload => node x.2 x.1.token nested []

/-- The trees of the lines under a line, of those that are listed. -/
def forest : List (Entry E × Nat) → Nat → List (Rose E)
  | [], _ => []
  | x :: es, n => if x.1.parent = n then ofEntry x (forest es x.2) :: forest es n else forest es n

section Forest

variable {x : Entry E × Nat} {es : List (Entry E × Nat)}

theorem id_ofEntry : (ofEntry x ts).id = x.2 := by
  unfold ofEntry
  split <;> rfl

theorem labels_ofEntry : (ofEntry x ts).labels = (x.1.token, x.2) :: labelsAll ts := by
  unfold ofEntry
  split
  · rfl
  · rw [labels, labelsAll, List.append_nil]

theorem close_ofEntry : (ofEntry x ts).close = x.1.close (closeAll ts) := by
  unfold ofEntry Entry.close
  split
  · rename_i hattach
    rw [hattach, close, closeAll, extendInside_nil]
  · rename_i hattach
    rw [hattach, close, closeAll, extend_nil, extendInside]
    cases hchildren : x.1.token.children with
    | nil => rfl
    | cons payload others => rfl

theorem update_ofEntry : (ofEntry x ts).update n f =
    if x.2 = n then f (ofEntry x (updateAll n f ts)) else ofEntry x (updateAll n f ts) := by
  unfold ofEntry
  split <;> rw [update, updateAll]

theorem exists_of_mem_labelsAll_forest {y : Token E × Nat} (h : y ∈ labelsAll (forest es n)) :
    ∃ x ∈ es, x.2 = y.2 := by
  induction es generalizing n with
  | nil => contradiction
  | cons x es ih =>
    have htail (m : Nat) (hy : y ∈ labelsAll (forest es m)) : ∃ z ∈ x :: es, z.2 = y.2 := by
      obtain ⟨z, hz, heq⟩ := ih hy
      exact ⟨z, List.mem_cons_of_mem x hz, heq⟩
    rw [forest] at h
    split at h
    · rw [labelsAll, labels_ofEntry, List.cons_append, List.mem_cons, List.mem_append] at h
      rcases h with rfl | h | h
      · exact ⟨x, List.mem_cons_self .., rfl⟩
      · exact htail _ h
      · exact htail _ h
    · exact htail _ h

/-- No line changes when one is to be changed that comes earlier than all those that are listed. -/
theorem updateAll_forest (h : ∀ x ∈ es, n < x.2) (m : Nat) :
    updateAll n f (forest es m) = forest es m := by
  refine updateAll_of_absent _ fun y hy ↦ ?_
  obtain ⟨x, hx, heq⟩ := exists_of_mem_labelsAll_forest hy
  exact heq ▸ Nat.ne_of_gt (h x hx)

theorem forest_cons_of_ne (h : x.1.parent ≠ n) : forest (x :: es) n = forest es n := if_neg h

theorem forest_eq_nil (h : ∀ x ∈ es, x.1.parent ≠ n) : forest es n = [] := by
  induction es with
  | nil => rfl
  | cons x es ih =>
    rw [List.forall_mem_cons] at h
    rw [forest_cons_of_ne h.1, ih h.2]

/-- A line more is a tree more in its place. What is done to the line that it lies under is told by
`mark`. -/
theorem forest_concat (mark : Entry E × Nat → Entry E × Nat) (hs : es.Pairwise (·.2 < ·.2))
    (hp : ∀ e ∈ es, (e.1.parent : Nat) < e.2)
    (hmark : ∀ e, (mark e).1.parent = e.1.parent ∧ (mark e).2 = e.2)
    (hother : ∀ e ∈ es, e.2 ≠ x.1.parent → mark e = e)
    (hf : ∀ e ∈ es, e.2 = x.1.parent → ofEntry (mark e) (forest es e.2 ++ [ofEntry x []]) =
      f (ofEntry e (forest es e.2))) (m : Nat) :
    forest (es.map mark ++ [x]) m = if x.1.parent = m then forest es m ++ [ofEntry x []]
      else updateAll x.1.parent f (forest es m) := by
  induction es generalizing m with
  | nil =>
    rw [List.map_nil, List.nil_append]
    rfl
  | cons e es ih =>
    rw [List.pairwise_cons] at hs
    rw [List.forall_mem_cons] at hp hother
    obtain ⟨hparent, hnumber⟩ := hmark e
    have htail := ih hs.2 hp.2 hother.2 fun d hd hdx ↦ by
      have hlt : (e.1.parent : Nat) < d.2 := Nat.lt_trans hp.1 (hs.1 d hd)
      rw [← forest_cons_of_ne (Nat.ne_of_lt hlt)]
      exact hf d (List.mem_cons_of_mem e hd) hdx
    rw [List.map_cons, List.cons_append, forest, forest, hparent, hnumber, htail e.2, htail m]
    by_cases hm : e.1.parent = m
    · rw [if_pos hm, if_pos hm]
      by_cases hx : x.1.parent = e.2
      · -- The line lies under this one, and so not beside it.
        have hne : ¬x.1.parent = m := fun heq ↦ Nat.ne_of_lt hp.1 (hm.trans (heq.symm.trans hx))
        have hhere := hf e (List.mem_cons_self ..) hx.symm
        rw [forest_cons_of_ne (Nat.ne_of_lt hp.1)] at hhere
        rw [if_pos hx, if_neg hne, if_neg hne, updateAll, update_ofEntry, if_pos hx.symm, hx,
          updateAll_forest hs.1 m, updateAll_forest hs.1 e.2, hhere]
      · rw [if_neg hx, hother.1 (Ne.symm hx)]
        by_cases hxm : x.1.parent = m
        · have hlt : ∀ d ∈ es, (x.1.parent : Nat) < d.2 := fun d hd ↦
            hxm.trans hm.symm ▸ Nat.lt_trans hp.1 (hs.1 d hd)
          rw [if_pos hxm, if_pos hxm, updateAll_forest hlt]
          rfl
        · rw [if_neg hxm, if_neg hxm, updateAll, update_ofEntry, if_neg (Ne.symm hx)]
    · rw [if_neg hm, if_neg hm]

theorem rising_ofEntry (h : RisingAll ts) : (ofEntry x ts).Rising := by
  unfold ofEntry
  split
  · exact ⟨trivial, h⟩
  · exact ⟨h, trivial⟩

theorem exists_of_mem_forest {t : Rose E} (h : t ∈ forest es n) : ∃ x ∈ es, x.2 = t.id := by
  induction es with
  | nil => contradiction
  | cons x es ih =>
    have htail (ht : t ∈ forest es n) : ∃ z ∈ x :: es, z.2 = t.id := by
      obtain ⟨z, hz, heq⟩ := ih ht
      exact ⟨z, List.mem_cons_of_mem x hz, heq⟩
    rw [forest] at h
    split at h
    · rcases List.mem_cons.1 h with rfl | h
      · exact ⟨x, List.mem_cons_self .., id_ofEntry.symm⟩
      · exact htail h
    · exact htail h

/-- Lines that lie under one line do so in the order of their numbers. -/
theorem risingAll_forest (hs : es.Pairwise (·.2 < ·.2)) (m : Nat) : RisingAll (forest es m) := by
  induction es generalizing m with
  | nil => trivial
  | cons e es ih =>
    rw [List.pairwise_cons] at hs
    rw [forest]
    split
    · refine ⟨rising_ofEntry (ih hs.2 e.2), fun t ht ↦ ?_, ih hs.2 m⟩
      obtain ⟨y, hy, heq⟩ := exists_of_mem_forest ht
      rw [id_ofEntry, ← heq]
      exact hs.1 y hy
    · exact ih hs.2 m

/-- Folding puts under a line what the plain trees come to. -/
theorem getD_foldr_put_eq {nothing : Array (List (Token E))} (hnil : ∀ q, nothing.getD q [] = [])
    (hp : ∀ x ∈ es, (x.1.parent : Nat) < x.2) (hsize : ∀ x ∈ es, x.2 < nothing.size) (m : Nat) :
    (es.foldr put nothing).getD m [] = closeAll (forest es m) := by
  induction es generalizing m with
  | nil => exact hnil m
  | cons x es ih =>
    rw [List.forall_mem_cons] at hp hsize
    have hparent : x.1.parent < (es.foldr put nothing).size := by
      rw [size_foldr_put]
      exact Nat.lt_trans hp.1 hsize.1
    rw [List.foldr_cons, put, getD_modify hparent, ih hp.2 hsize.2, ih hp.2 hsize.2, forest]
    by_cases h : x.1.parent = m
    · rw [if_pos h, if_pos h.symm, closeAll, close_ofEntry]
    · rw [if_neg h, if_neg (Ne.symm h)]

/-- What the fold of an outline puts under a line is what the plain trees come to. -/
theorem closeAll_forest {o : Outline E} (h : ∀ x ∈ o.numbered, (x.1.parent : Nat) < x.2) (m : Nat) :
    closeAll (forest o.numbered m) = o.nested m := by
  rw [nested_eq_foldr]
  exact (getD_foldr_put_eq (getD_nothing o) h (fun _ ↦ lt_size_nothing) m).symm

end Forest

end Rose

end Pug

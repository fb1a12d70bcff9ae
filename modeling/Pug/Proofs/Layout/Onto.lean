import Pug.Proofs.Layout.Forest
import Pug.Proofs.Token.Recast

/-!
# Outlines behind other lines

The lines of an outline may come behind the lines of another, and they may be recast. Then what an
outline does is done behind those lines as well, and in the end the trees of its lines come behind
the trees of the lines before.
-/

namespace Pug.Outline

open Token

variable {E₁ E₂ : Type}

/-- The number of a line behind `k` others. The whole template stays what it is. -/
def behind (k : Nat) : Nat → Nat
  | 0 => 0
  | n + 1 => k + (n + 1)

variable {k : Nat}

@[simp] theorem behind_zero (k : Nat) : behind k 0 = 0 := rfl

@[simp] theorem behind_succ (k n : Nat) : behind k (n + 1) = k + (n + 1) := rfl

theorem behind_inj {m n : Nat} : behind k m = behind k n ↔ m = n := by
  refine ⟨fun h ↦ ?_, congrArg _⟩
  cases m with
  | zero =>
    cases n with
    | zero => rfl
    | succ n =>
      rw [behind_zero, behind_succ] at h
      omega
  | succ m =>
    cases n with
    | zero =>
      rw [behind_zero, behind_succ] at h
      omega
    | succ n =>
      rw [behind_succ, behind_succ] at h
      omega

/-- No line behind others has the number of one of those. -/
theorem behind_ne {id j : Nat} (h₁ : 0 < j) (h₂ : j ≤ k) : behind k id ≠ j := by
  cases id with
  | zero =>
    rw [behind_zero]
    omega
  | succ n =>
    rw [behind_succ]
    omega

/-- An entry, recast, behind `k` others. -/
def Entry.onto (R : Recast E₁ E₂) (k : Nat) (e : Entry E₁) : Entry E₂ :=
  ⟨R.token e.token, behind k e.parent, e.attach⟩

theorem Entry.parent_onto (R : Recast E₁ E₂) (k : Nat) (e : Entry E₁) :
    (e.onto R k).parent = behind k e.parent := rfl

/-- An outline, recast, behind other lines. -/
def onto (R : Recast E₁ E₂) (before : Array (Entry E₂)) (o : Outline E₁) : Outline E₂ :=
  ⟨before ++ o.entries.map (Entry.onto R before.size), o.openLines.map (behind before.size),
    o.maxDepth⟩

section Onto

variable (R : Recast E₁ E₂) (before : Array (Entry E₂)) (o : Outline E₁)

@[simp] theorem maxDepth_onto : (o.onto R before).maxDepth = o.maxDepth := rfl

@[simp] theorem size_entries_onto :
    (o.onto R before).entries.size = before.size + o.entries.size := by
  simp [onto]

theorem checkLevel_onto (level : Nat) : (o.onto R before).checkLevel level = o.checkLevel level := by
  simp [checkLevel, onto]

theorem parentAt_onto (level : Nat) :
    (o.onto R before).parentAt level = behind before.size (o.parentAt level) := by
  cases level with
  | zero => rfl
  | succ level =>
    simp only [parentAt, onto, List.getD_eq_getElem?_getD, List.getElem?_map]
    cases o.openLines[level]? <;> rfl

theorem has_onto (id : LineId) : (o.onto R before).has (behind before.size id) = o.has id := by
  rw [has, has, size_entries_onto]
  cases id with
  | zero => simp [behind]
  | succ n => simp [behind]

theorem add_onto (parent : LineId) (line : Token E₁) :
    (o.onto R before).add (behind before.size parent) (R.token line) =
      ((o.add parent line).1.onto R before, behind before.size (o.add parent line).2) := by
  refine Prod.ext ?_ ?_
  · simp [add, onto, Entry.onto]
  · simp [add, onto, behind, Nat.add_assoc]

/-- Opening a line behind other lines. -/
theorem openLine_onto (level : Nat) (line : Token E₁) :
    (o.onto R before).openLine level (R.token line) =
      (o.openLine level line).map (Prod.map (onto R before) (behind before.size)) := by
  unfold openLine
  rw [checkLevel_onto, parentAt_onto, add_onto]
  split
  · rfl
  · simp [Except.map, onto]

theorem attachToPayload_onto (entries : Array (Entry E₁)) (owner : LineId) :
    attachToPayload (before ++ entries.map (Entry.onto R before.size)) (behind before.size owner) =
      before ++ (attachToPayload entries owner).map (Entry.onto R before.size) := by
  cases owner with
  | zero => rfl
  | succ n =>
    refine Array.ext_getElem? fun i ↦ ?_
    simp only [behind_succ, attachToPayload, ← Nat.add_assoc, Array.getElem?_modify,
      Array.getElem?_append, Array.getElem?_map]
    by_cases hi : i < before.size
    · rw [if_pos hi, if_pos hi, if_neg (by omega)]
    · rw [if_neg hi, if_neg hi]
      by_cases hn : before.size + n = i
      · rw [if_pos hn, if_pos (by omega), Option.map_map, Option.map_map]
        rfl
      · rw [if_neg hn, if_neg (by omega)]

theorem takeOver_onto (openLines : List LineId) (owner id : LineId) :
    takeOver (openLines.map (behind k)) (behind k owner) (behind k id) =
      (takeOver openLines owner id).map (behind k) := by
  have hlast : (openLines.map (behind k)).getLast? = some (behind k owner) ↔
      openLines.getLast? = some owner := by
    rw [List.getLast?_map, Option.map_eq_some_iff]
    exact ⟨fun ⟨a, ha, h⟩ ↦ by rwa [behind_inj.1 h] at ha, fun h ↦ ⟨owner, h, rfl⟩⟩
  unfold takeOver
  by_cases h : openLines.getLast? = some owner
  · rw [if_pos (hlast.2 h), if_pos h, List.map_append, List.map_dropLast]
    rfl
  · rw [if_neg (mt hlast.1 h), if_neg h]

theorem expand_onto (owner : LineId) (line : Token E₁) :
    (o.onto R before).expand (behind before.size owner) (R.token line) =
      ((o.expand owner line).1.onto R before, behind before.size (o.expand owner line).2) := by
  unfold expand
  rw [add_onto]
  dsimp only [onto]
  rw [attachToPayload_onto, takeOver_onto]

theorem append_onto (owner : LineId) (line : Token E₁) :
    (o.onto R before).append (behind before.size owner) (R.token line) =
      ((o.append owner line).1.onto R before, behind before.size (o.append owner line).2) :=
  add_onto R before o owner line

end Onto

section Close

variable (R : Recast E₁ E₂)

theorem extend_onto (t : Token E₁) (ns : List (Token E₁)) :
    extend (R.token t) (R.tokens ns) = R.token (extend t ns) := by
  rw [Recast.token_eq, Recast.token_eq, extend, extend, Recast.tokens_append]

theorem extendPayload_onto (t : Token E₁) (ns : List (Token E₁)) :
    extendPayload (R.token t) (R.tokens ns) = R.token (extendPayload t ns) := by
  unfold extendPayload
  rw [Recast.kind_token, Recast.children_token]
  split
  · rename_i tag others hk hc
    cases hchildren : t.children with
    | nil =>
      rw [hchildren] at hc
      simp at hc
    | cons first rest =>
      rw [hchildren, Recast.tokens_cons] at hc
      obtain ⟨rfl, rfl⟩ := List.cons.inj hc
      rw [hk, extend_onto, Recast.token_eq R t]
      refine .trans ?_ (Recast.token_eq ..).symm
      rw [Recast.tokens_cons]
  · rename_i hnot
    rw [extend_onto]
    split
    · rename_i tag others hk hc
      refine (hnot (R.token tag) (R.tokens others) hk ?_).elim
      rw [hc, Recast.tokens_cons]
    · rfl

theorem close_onto (e : Entry E₁) (ns : List (Token E₁)) :
    (e.onto R k).close (R.tokens ns) = R.token (e.close ns) := by
  unfold Entry.close Entry.onto
  rw [Recast.children_token]
  dsimp only
  split
  · rename_i payload others hattach hc
    cases hchildren : e.token.children with
    | nil =>
      rw [hchildren] at hc
      simp at hc
    | cons first rest =>
      rw [hchildren, Recast.tokens_cons] at hc
      obtain ⟨rfl, rfl⟩ := List.cons.inj hc
      rw [hattach, extendPayload_onto, Recast.token_eq R e.token]
      refine .trans ?_ (Recast.token_eq ..).symm
      rw [Recast.tokens_cons]
  · rename_i hnot
    rw [extend_onto]
    split
    · rename_i tag others hk hc
      refine (hnot (R.token tag) (R.tokens others) hk ?_).elim
      rw [hc, Recast.tokens_cons]
    · rfl

end Close

/-- The lines under the lines of an outline, when one is put among them. -/
theorem getElem?_put {E : Type} (e : Entry E) (i j : Nat) (nested : Array (List (Token E))) :
    (put (e, i) nested)[j]? = if e.parent = j then
      nested[j]?.map (e.close (nested.getD i []) :: ·) else nested[j]? := by
  rw [put, Array.getElem?_modify]

/-- The lines under the lines of an outline, and those under the same lines behind `k` others, with
nothing under the others. -/
structure Behind (R : Recast E₁ E₂) (k : Nat) (nested : Array (List (Token E₁)))
    (nested' : Array (List (Token E₂))) : Prop where
  under : ∀ i, nested'[behind k i]? = nested[i]?.map R.tokens
  others : ∀ i, 0 < i → i ≤ k → nested'[i]? = some []

section Fold

variable {R : Recast E₁ E₂}

theorem Behind.put {nested : Array (List (Token E₁))} {nested' : Array (List (Token E₂))}
    (h : Behind R k nested nested') (e : Entry E₁) (i : Nat) :
    Behind R k (put (e, i) nested) (put (e.onto R k, behind k i) nested') where
  under j := by
    have hnested : nested'.getD (behind k i) [] = R.tokens (nested.getD i []) := by
      rw [Array.getD_eq_getD_getElem?, Array.getD_eq_getD_getElem?, h.under]
      cases nested[i]? <;> simp
    rw [getElem?_put, getElem?_put, hnested, close_onto, h.under, Entry.parent_onto]
    by_cases hj : e.parent = j
    · rw [if_pos (congrArg _ hj), if_pos hj, Option.map_map, Option.map_map]
      refine congrArg (Option.map · _) (funext fun ts ↦ ?_)
      exact (Recast.tokens_cons ..).symm
    · rw [if_neg (mt behind_inj.1 hj), if_neg hj]
  others j h₁ h₂ := by
    rw [getElem?_put, Entry.parent_onto, if_neg (behind_ne h₁ h₂)]
    exact h.others j h₁ h₂

theorem Behind.foldr {nested : Array (List (Token E₁))} {nested' : Array (List (Token E₂))}
    (h : Behind R k nested nested') (es : List (Entry E₁)) (n : Nat) :
    Behind R k ((es.zipIdx (n + 1)).foldr Outline.put nested)
      (((es.map (Entry.onto R k)).zipIdx (k + (n + 1))).foldr Outline.put nested') := by
  induction es generalizing n with
  | nil => exact h
  | cons e es ih =>
    rw [List.map_cons, List.zipIdx_cons, List.zipIdx_cons, List.foldr_cons, List.foldr_cons]
    exact (ih (n + 1)).put e (n + 1)

/-- The same lines, with more trees under the whole template behind those that are there. -/
structure Extended (k : Nat) (ts : List (Token E₂)) (nested nested' : Array (List (Token E₂))) :
    Prop where
  root : nested'[0]? = nested[0]?.map (· ++ ts)
  under : ∀ i, 0 < i → i ≤ k → nested'[i]? = nested[i]?

theorem Extended.put {ts : List (Token E₂)} {nested nested' : Array (List (Token E₂))}
    (h : Extended k ts nested nested') (e : Entry E₂) {i : Nat} (h₁ : 0 < i) (h₂ : i ≤ k) :
    Extended k ts (put (e, i) nested) (put (e, i) nested') := by
  have hnested : nested'.getD i [] = nested.getD i [] := by
    rw [Array.getD_eq_getD_getElem?, Array.getD_eq_getD_getElem?, h.under i h₁ h₂]
  refine ⟨?_, fun j h₁ h₂ ↦ ?_⟩
  · rw [getElem?_put, getElem?_put, hnested, h.root]
    split
    · rw [Option.map_map, Option.map_map]
      rfl
    · rfl
  · rw [getElem?_put, getElem?_put, hnested, h.under j h₁ h₂]

theorem Extended.foldr {ts : List (Token E₂)} {nested nested' : Array (List (Token E₂))}
    (h : Extended k ts nested nested') {es : List (Entry E₂)} {n : Nat}
    (hn : n + es.length ≤ k) : Extended k ts ((es.zipIdx (n + 1)).foldr Outline.put nested)
      ((es.zipIdx (n + 1)).foldr Outline.put nested') := by
  induction es generalizing n with
  | nil => exact h
  | cons e es ih =>
    rw [List.length_cons] at hn
    rw [List.zipIdx_cons, List.foldr_cons, List.foldr_cons]
    exact (ih (n := n + 1) (by omega)).put e (Nat.succ_pos n) (by omega)

end Fold

/-- The trees of the lines of an outline. -/
theorem children_finish (o : Outline E₁) : o.finish.children =
    ((o.entries.toList.zipIdx 1).foldr put (Array.replicate (o.entries.size + 1) [])).getD 0 [] := by
  have hfold := fold_eq_foldr o.entries (Array.replicate (o.entries.size + 1) []) o.entries.size
    (Nat.le_refl _)
  rw [List.take_of_length_le (by simp)] at hfold
  rw [← hfold]
  rfl

/-- The trees of an outline behind other lines come behind the trees of those. -/
theorem finish_onto (R : Recast E₁ E₂) (before o' : Outline E₂) (o : Outline E₁)
    (h : o'.entries = (o.onto R before.entries).entries) :
    o'.finish.children = before.finish.children ++ R.tokens o.finish.children := by
  have hreplicate : ∀ (E : Type) (n i : Nat), i ≤ n →
      (Array.replicate (n + 1) ([] : List (Token E)))[i]? = some [] := by
    intro E n i hi
    rw [Array.getElem?_replicate, if_pos (Nat.lt_succ_of_le hi)]
  have hsize : o'.entries.size = before.entries.size + o.entries.size := by
    rw [h, size_entries_onto]
  have hlist : o'.entries.toList =
      before.entries.toList ++ o.entries.toList.map (Entry.onto R before.entries.size) := by
    rw [h, onto, Array.toList_append, Array.toList_map]
  rw [children_finish, children_finish, children_finish, hlist, List.zipIdx_append, List.foldr_append,
    Array.length_toList]
  -- The lines are folded from the last, so those behind come first.
  have hbehind : Behind R before.entries.size (Array.replicate (o.entries.size + 1) [])
      (Array.replicate (o'.entries.size + 1) []) := by
    refine ⟨fun i ↦ ?_, fun i _ hi ↦ hreplicate _ _ _ (by omega)⟩
    rw [Array.getElem?_replicate, Array.getElem?_replicate, hsize]
    cases i with
    | zero => simp
    | succ i =>
      rw [behind_succ]
      by_cases hi : i + 1 < o.entries.size + 1
      · rw [if_pos (by omega), if_pos hi]
        simp
      · rw [if_neg (by omega), if_neg hi]
        rfl
  obtain ⟨hunder, hothers⟩ := hbehind.foldr o.entries.toList 0
  have hpos : 0 < ((o.entries.toList.zipIdx 1).foldr put
      (Array.replicate (o.entries.size + 1) [])).size := by
    rw [size_foldr_put, Array.size_replicate]
    exact Nat.succ_pos _
  rw [Nat.zero_add, Nat.add_comm before.entries.size] at hunder hothers
  generalize (o.entries.toList.zipIdx 1).foldr put (Array.replicate (o.entries.size + 1) []) = nested
    at *
  generalize ((o.entries.toList.map (Entry.onto R before.entries.size)).zipIdx
    (1 + before.entries.size)).foldr put (Array.replicate (o'.entries.size + 1) []) = nested' at *
  have hextended : Extended before.entries.size (R.tokens (nested.getD 0 []))
      (Array.replicate (before.entries.size + 1) []) nested' := by
    refine ⟨?_, fun i h₁ h₂ ↦ by rw [hothers i h₁ h₂, hreplicate _ _ _ h₂]⟩
    have h₀ := hunder 0
    rw [behind_zero] at h₀
    rw [h₀, hreplicate _ _ 0 (Nat.zero_le _), Array.getD_eq_getD_getElem?,
      Array.getElem?_eq_getElem hpos]
    rfl
  have hcount : 0 + before.entries.toList.length ≤ before.entries.size := by simp
  have hend := (hextended.foldr hcount).root
  have hpos' : 0 < ((before.entries.toList.zipIdx 1).foldr put
      (Array.replicate (before.entries.size + 1) [])).size := by
    rw [size_foldr_put, Array.size_replicate]
    exact Nat.succ_pos _
  rw [Nat.zero_add, Array.getElem?_eq_getElem hpos'] at hend
  simp only [Array.getD_eq_getD_getElem?] at hend ⊢
  rw [hend, Array.getElem?_eq_getElem hpos']
  rfl

end Pug.Outline

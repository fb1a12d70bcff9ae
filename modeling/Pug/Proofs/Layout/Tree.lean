import Pug.Proofs.Layout.Forest

/-!
# The tree of an outline

When the lines of an outline have been folded, below each line stand the lines that lie under it, in
the order in which they were added, each with what stands below it. This holds of every outline whose
lines lie under earlier ones, however its lines follow one another.
-/

namespace Pug.Outline

open Token

variable {E : Type} {o : Outline E} {es : List (Entry E × Nat)} {id : Nat}

/-- The lines of an outline with their numbers. -/
def numbered (o : Outline E) : List (Entry E × Nat) :=
  o.entries.toList.zipIdx 1

/-- What stands below each line when all lines have been folded. -/
def nested (o : Outline E) (id : Nat) : List (Token E) :=
  (fold o.entries o.entries.size (Array.replicate (o.entries.size + 1) [])).getD id []

theorem children_finish_eq (o : Outline E) : o.finish.children = o.nested 0 := rfl

/-- Numbers rise. -/
theorem pairwise_zipIdx (es : List (Entry E)) (first : Nat) :
    (es.zipIdx first).Pairwise (·.2 < ·.2) := by
  have hmap := List.pairwise_lt_range' (s := first) (n := es.length) 1
  rw [← List.zipIdx_map_snd first es, List.pairwise_map] at hmap
  exact hmap

theorem pairwise_numbered (o : Outline E) : o.numbered.Pairwise (·.2 < ·.2) :=
  pairwise_zipIdx _ 1

/-- Folding puts in front of the lines under a line those that lie under it, in order. -/
theorem getD_foldr_put {nested : Array (List (Token E))} (hp : ∀ x ∈ es, (x.1.parent : Nat) < x.2)
    (hs : es.Pairwise (·.2 < ·.2)) (hsize : ∀ x ∈ es, x.2 < nested.size) (q : Nat) :
    (es.foldr put nested).getD q [] = (es.filter (·.1.parent = q)).map
      (fun x ↦ x.1.close ((es.foldr put nested).getD x.2 [])) ++ nested.getD q [] := by
  induction es generalizing q with
  | nil => rfl
  | cons x es ih =>
    rw [List.forall_mem_cons] at hp hsize
    rw [List.pairwise_cons] at hs
    have hparent : x.1.parent < (es.foldr put nested).size := by
      rw [size_foldr_put]
      exact Nat.lt_trans hp.1 hsize.1
    have hget := getD_modify hparent (x.1.close ((es.foldr put nested).getD x.2 []))
    -- What stands below the line, and below those behind it, is there already.
    have hkeep (y : Entry E × Nat) (hy : (x.1.parent : Nat) < y.2) :
        ((x :: es).foldr put nested).getD y.2 [] = (es.foldr put nested).getD y.2 [] := by
      rw [List.foldr_cons, put, hget, if_neg (Nat.ne_of_gt hy)]
    have hrest : (es.filter (·.1.parent = q)).map
          (fun y ↦ y.1.close (((x :: es).foldr put nested).getD y.2 [])) =
        (es.filter (·.1.parent = q)).map fun y ↦ y.1.close ((es.foldr put nested).getD y.2 []) := by
      refine List.map_congr_left fun y hy ↦ ?_
      rw [hkeep y (Nat.lt_trans hp.1 (hs.1 y (List.mem_of_mem_filter hy)))]
    rw [List.filter_cons]
    by_cases h : x.1.parent = q
    · rw [if_pos (by simpa using h), List.map_cons, hkeep x hp.1, hrest, List.cons_append,
        ← ih hp.2 hs.2 hsize.2 q, List.foldr_cons, put, hget, if_pos h.symm]
    · rw [if_neg (by simpa using h), hrest, ← ih hp.2 hs.2 hsize.2 q, List.foldr_cons, put, hget,
        if_neg (Ne.symm h)]

/-- The lines lie under earlier ones, and the open ones come in order. -/
structure Ordered (o : Outline E) : Prop where
  parents : ∀ x ∈ o.numbered, (x.1.parent : Nat) < x.2
  openLines : o.openLines.Pairwise (· < ·)
  bounds : ∀ id ∈ o.openLines, 0 < id ∧ id ≤ o.entries.size

theorem le_of_mem_numbered {x : Entry E × Nat} (h : x ∈ o.numbered) : x.2 ≤ o.entries.size := by
  have := List.snd_lt_of_mem_zipIdx h
  rw [Array.length_toList] at this
  omega

/-- Nothing stands below a line before the fold. -/
def nothing (o : Outline E) : Array (List (Token E)) :=
  Array.replicate (o.entries.size + 1) []

theorem getD_nothing (o : Outline E) (id : Nat) : o.nothing.getD id [] = [] := by
  rw [nothing, Array.getD_eq_getD_getElem?, Array.getElem?_replicate]
  split <;> rfl

theorem lt_size_nothing {x : Entry E × Nat} (h : x ∈ o.numbered) : x.2 < o.nothing.size := by
  rw [nothing, Array.size_replicate]
  exact Nat.lt_succ_of_le (le_of_mem_numbered h)

/-- The fold goes over the numbered lines. -/
theorem nested_eq_foldr (o : Outline E) (id : Nat) :
    o.nested id = (o.numbered.foldr put o.nothing).getD id [] := by
  have htake : o.entries.toList.take o.entries.size = o.entries.toList :=
    List.take_of_length_le (by simp)
  rw [nested, fold_eq_foldr _ _ _ (Nat.le_refl _), htake]
  rfl

/-- Below a line stand the lines under it, in order, each with what stands below it. -/
theorem nested_eq (h : ∀ x ∈ o.numbered, (x.1.parent : Nat) < x.2) (id : Nat) : o.nested id =
    (o.numbered.filter (·.1.parent = id)).map fun x ↦ x.1.close (o.nested x.2) := by
  have hget := getD_foldr_put h o.pairwise_numbered (fun _ ↦ lt_size_nothing) id
  rw [getD_nothing, List.append_nil] at hget
  simp only [nested_eq_foldr]
  exact hget

theorem kind_close (e : Entry E) (ts : List (Token E)) : (e.close ts).kind = e.token.kind := by
  unfold Entry.close
  split <;> rfl

theorem kind_of_mem_nested (h : ∀ x ∈ o.numbered, (x.1.parent : Nat) < x.2)
    (hkind : ∀ x ∈ o.numbered, x.1.token.kind = .line) {t : Token E} (ht : t ∈ o.nested id) :
    t.kind = .line := by
  rw [nested_eq h] at ht
  obtain ⟨x, hx, rfl⟩ := List.mem_map.1 ht
  rw [kind_close]
  exact hkind x (List.mem_of_mem_filter hx)

/-- What holds of each line if it holds of the lines below it holds of all that stand below a line. -/
theorem forall_nested {P : Entry E × Nat → Prop} (h : ∀ x ∈ o.numbered, (x.1.parent : Nat) < x.2)
    (hp : ∀ x ∈ o.numbered, (∀ y ∈ o.numbered, y.1.parent = x.2 → P y) → P x) :
    ∀ x ∈ o.numbered, P x := by
  -- The induction goes from the last line to the first.
  have hdown (k : Nat) : ∀ x ∈ o.numbered, o.entries.size - x.2 ≤ k → P x := by
    induction k with
    | zero =>
      intro x hx hk
      refine hp x hx fun y hy hparent ↦ ?_
      have hlt : x.2 < y.2 := hparent ▸ h y hy
      have hle := le_of_mem_numbered hy
      omega
    | succ k ih =>
      intro x hx hk
      refine hp x hx fun y hy hparent ↦ ih y hy ?_
      have hlt : x.2 < y.2 := hparent ▸ h y hy
      have hle := le_of_mem_numbered hy
      omega
  exact fun x hx ↦ hdown _ x hx (Nat.le_refl _)

/-- The lines below a line are those of the trees that have been put under it. -/
theorem linesAll_children_close {e : Entry E} (h : ∀ u ∈ e.token.children, u.IsInner)
    (ts : List (Token E)) : linesAll (e.close ts).children = linesAll ts := by
  obtain ⟨line, parent, attach⟩ := e
  cases attach with
  | line => exact linesAll_extend h ts
  | payload => exact linesAll_close h ts

theorem exists_mem_of_mem_linesAll {t : Token E} {ts : List (Token E)} (h : t ∈ linesAll ts) :
    ∃ u ∈ ts, t ∈ linesAll [u] := by
  induction ts with
  | nil => contradiction
  | cons u ts ih =>
    rw [← List.singleton_append, linesAll_append, List.mem_append] at h
    rcases h with h | h
    · exact ⟨u, List.mem_cons_self .., h⟩
    · obtain ⟨v, hv, ht⟩ := ih h
      exact ⟨v, List.mem_cons_of_mem u hv, ht⟩

/-- The lines of the tree are those of the outline. -/
theorem exists_numbered_of_mem_linesAll (h : ∀ x ∈ o.numbered, (x.1.parent : Nat) < x.2)
    (hbare : ∀ x ∈ o.numbered, Line.IsBare x.1.token) {t : Token E}
    (ht : t ∈ linesAll o.finish.children) : ∃ x ∈ o.numbered, t = x.1.close (o.nested x.2) := by
  have hbelow (id : Nat) (hrec : ∀ y ∈ o.numbered, y.1.parent = id →
      ∀ t ∈ linesAll [y.1.close (o.nested y.2)], ∃ x ∈ o.numbered, t = x.1.close (o.nested x.2)) :
      ∀ t ∈ linesAll (o.nested id), ∃ x ∈ o.numbered, t = x.1.close (o.nested x.2) := by
    intro t ht
    rw [nested_eq h] at ht
    obtain ⟨u, hu, ht⟩ := exists_mem_of_mem_linesAll ht
    obtain ⟨y, hy, rfl⟩ := List.mem_map.1 hu
    obtain ⟨hy, hparent⟩ := List.mem_filter.1 hy
    exact hrec y hy (of_decide_eq_true hparent) t ht
  have hall := forall_nested (P := fun y ↦ ∀ t ∈ linesAll [y.1.close (o.nested y.2)],
    ∃ x ∈ o.numbered, t = x.1.close (o.nested x.2)) h fun y hy hrec t ht ↦ by
      rw [linesAll_cons, if_pos ((kind_close ..).trans (hbare y hy).kind),
        linesAll_children_close (hbare y hy).inner, List.append_assoc] at ht
      rcases List.mem_append.1 ht with ht | ht
      · exact ⟨y, hy, List.mem_singleton.1 ht⟩
      · refine hbelow y.2 hrec t ?_
        simpa [linesAll] using ht
  exact hbelow 0 (fun y hy _ ↦ hall y hy) t ht

theorem numbered_eq {o' : Outline E} {new : List (Entry E)}
    (h : o'.entries.toList = o.entries.toList ++ new) :
    o'.numbered = o.numbered ++ new.zipIdx (o.entries.size + 1) := by
  rw [numbered, h, List.zipIdx_append, Array.length_toList, Nat.add_comm 1]
  rfl

theorem numbered_append (o : Outline E) (owner : Nat) (line : Token E) :
    (o.append owner line).1.numbered = o.numbered ++ [(⟨line, owner, .line⟩, o.entries.size + 1)] :=
  have he : (o.append owner line).1.entries.toList = o.entries.toList ++ [⟨line, owner, .line⟩] :=
    Array.toList_push ..
  numbered_eq he

theorem size_le_of_numbered {o' : Outline E} {new : List (Entry E × Nat)}
    (h : o'.numbered = o.numbered ++ new) : o.entries.size ≤ o'.entries.size := by
  have hlength := congrArg List.length h
  rw [List.length_append] at hlength
  simp only [numbered, List.length_zipIdx, Array.length_toList] at hlength
  omega

/-- The entries of a chain, with their numbers. -/
theorem mem_zipIdx_chainEntries {parent first : Nat} {line : Token E} {lines : List (Token E)}
    {x : Entry E × Nat} (h : x ∈ (chainEntries parent first line lines).zipIdx first) :
    ∃ k, (line :: lines)[k]? = some x.1.token ∧ x.2 = first + k ∧
      x.1.parent = (if k = 0 then parent else first + k - 1) ∧
      x.1.attach = if k < lines.length then .payload else .line := by
  induction lines generalizing parent first line with
  | nil =>
    rw [chainEntries, List.zipIdx_singleton, List.mem_singleton] at h
    subst h
    exact ⟨0, rfl, rfl, rfl, rfl⟩
  | cons next lines ih =>
    rw [chainEntries, List.zipIdx_cons, List.mem_cons] at h
    rcases h with rfl | h
    · exact ⟨0, rfl, rfl, rfl, rfl⟩
    · obtain ⟨k, htoken, hnumber, hparent, hattach⟩ := ih h
      refine ⟨k + 1, htoken, by omega, ?_, ?_⟩
      · rw [hparent, if_neg (Nat.succ_ne_zero k)]
        dsimp only [LineId]
        split <;> omega
      · rw [hattach, List.length_cons]
        simp only [Nat.add_lt_add_iff_right]

namespace Ordered

variable {level owner : Nat} {line : Token E} {lines : List (Token E)} {o' : Outline E}

theorem empty (maxDepth : Nat) : Ordered (.empty maxDepth : Outline E) :=
  ⟨nofun, .nil, nofun⟩

/-- A line lies under an open line of a lower level, or under the whole template. -/
theorem parentAt_eq_zero_or_mem (o : Outline E) (level : Nat) :
    o.parentAt level = 0 ∨ o.parentAt level ∈ o.openLines.take level := by
  cases level with
  | zero => exact .inl rfl
  | succ level =>
    rw [parentAt, List.getD_eq_getElem?_getD]
    cases hid : o.openLines[level]? with
    | none => exact .inl rfl
    | some id =>
      right
      refine List.mem_iff_getElem?.2 ⟨level, ?_⟩
      rw [List.getElem?_take_of_lt (Nat.lt_succ_self level), hid]
      rfl

theorem parentAt_le (h : Ordered o) (level : Nat) : o.parentAt level ≤ o.entries.size := by
  rcases parentAt_eq_zero_or_mem o level with hzero | hmem
  · rw [hzero]
    exact Nat.zero_le _
  · exact (h.bounds _ (List.mem_of_mem_take hmem)).2

/-- A chain that is opened at a level keeps the order. -/
theorem chain (h : Ordered o) (he : o'.entries.toList = o.entries.toList ++
      chainEntries (o.parentAt level) (o.entries.size + 1) line lines)
    (ho : o'.openLines = o.openLines.take level ++ [o.entries.size + 1 + lines.length]) :
    Ordered o' := by
  have hsize : o'.entries.size = o.entries.size + (lines.length + 1) := by
    rw [← Array.length_toList, he, List.length_append, length_chainEntries, Array.length_toList]
  refine ⟨?_, ?_, ?_⟩
  · rw [numbered_eq he, List.forall_mem_append]
    refine ⟨h.parents, fun x hx ↦ ?_⟩
    obtain ⟨k, -, hnumber, hparent, -⟩ := mem_zipIdx_chainEntries hx
    have hle := h.parentAt_le level
    rw [hparent, hnumber]
    dsimp only [LineId] at hle ⊢
    split <;> omega
  · rw [ho, List.pairwise_append]
    refine ⟨h.openLines.sublist (List.take_sublist ..), List.pairwise_singleton .., ?_⟩
    intro id hid next hnext
    have hle : id ≤ o.entries.size := (h.bounds id (List.mem_of_mem_take hid)).2
    rw [List.mem_singleton.1 hnext]
    exact Nat.lt_of_le_of_lt hle (Nat.lt_add_right _ (Nat.lt_succ_self _))
  · rw [ho, List.forall_mem_append, List.forall_mem_singleton, hsize]
    refine ⟨fun id hid ↦ ?_, ?_⟩
    · have hid := h.bounds id (List.mem_of_mem_take hid)
      exact ⟨hid.1, Nat.le_add_right_of_le hid.2⟩
    · dsimp only [LineId]
      omega

/-- A line that is added under another one keeps the order. -/
theorem append (h : Ordered o) (howner : owner ≤ o.entries.size) (line : Token E) :
    Ordered (o.append owner line).1 := by
  refine ⟨?_, h.openLines, fun id hid ↦ ?_⟩
  · rw [numbered_append, List.forall_mem_append, List.forall_mem_singleton]
    exact ⟨h.parents, Nat.lt_succ_of_le howner⟩
  · have hid := h.bounds id hid
    exact ⟨hid.1, Nat.le_trans hid.2 (by rw [Outline.append, size_add]; exact Nat.le_succ _)⟩

end Ordered

end Pug.Outline

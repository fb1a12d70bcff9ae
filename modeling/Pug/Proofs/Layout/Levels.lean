import Pug.Proofs.Layout.Forest

/-!
# Lines under lines, by their levels

A line lies under the latest line one level above it. The open lines of an outline tell just that:
at each level there is the last line of the latest chain at that level. So an outline to which
chains are added at some levels has the chains under one another as the levels say.
-/

namespace Pug

open Outline Token

variable {E : Type}

namespace Levels

variable {level l j : Nat} {levels : List Nat}

/-- Levels that start at `bound` at most, and of which none is deeper than the one before by more than
one. -/
def Climb : Nat → List Nat → Prop
  | _, [] => True
  | bound, level :: levels => level ≤ bound ∧ Climb (level + 1) levels

/-- The latest of some lines, by their levels, that is at `level`. -/
def latest? (level : Nat) (levels : List Nat) : Option Nat :=
  (levels.zipIdx.filter fun x ↦ x.1 = level).getLast?.map Prod.snd

/-- Of the lines before a line at a level, the one that it lies under. -/
def above? (levels : List Nat) : Nat → Option Nat
  | 0 => none
  | level + 1 => latest? level levels

/-- The line that a line lies under. -/
def parent? (levels : List Nat) (i : Nat) : Option Nat :=
  above? (levels.take i) (levels.getD i 0)

/-- The lines that the lines lie under, in their order. -/
def parents (levels : List Nat) : List (Option Nat) :=
  (List.range levels.length).map (parent? levels)

@[simp] theorem length_parents (levels : List Nat) : (parents levels).length = levels.length := by
  rw [parents, List.length_map, List.length_range]

theorem latest_concat (level : Nat) (levels : List Nat) (l : Nat) :
    latest? level (levels ++ [l]) = if l = level then some levels.length else latest? level levels := by
  rw [latest?, List.zipIdx_append, List.filter_append]
  by_cases h : l = level
  · simp [h]
  · simp [h, latest?]

theorem latest_lt (h : latest? level levels = some j) : j < levels.length := by
  obtain ⟨x, hx, rfl⟩ := Option.map_eq_some_iff.1 h
  have hmem := (List.mem_filter.1 (List.mem_of_getLast? hx)).1
  have := List.snd_lt_add_of_mem_zipIdx hmem
  simpa using this

theorem parents_concat (levels : List Nat) (l : Nat) :
    parents (levels ++ [l]) = parents levels ++ [above? levels l] := by
  rw [parents, List.length_append, List.length_singleton, List.range_succ, List.map_append]
  refine congr (congrArg _ (List.map_congr_left fun i hi ↦ ?_)) ?_
  · rw [List.mem_range] at hi
    rw [parent?, parent?, List.take_append_of_le_length (Nat.le_of_lt hi),
      List.getD_eq_getElem?_getD, List.getD_eq_getElem?_getD, List.getElem?_append_left hi]
  · simp [parent?]

theorem lt_of_above (h : above? levels l = some j) : j < levels.length := by
  cases l with
  | zero => contradiction
  | succ level => exact latest_lt h

theorem lt_of_mem_parents (h : some j ∈ parents levels) : j < levels.length := by
  obtain ⟨i, hi, hp⟩ := List.mem_map.1 h
  have := lt_of_above hp
  rw [List.length_take] at this
  omega

/-- The number of the last line of a chain, zero for no chain. -/
def idOf (lasts : List Nat) : Option Nat → Nat
  | none => 0
  | some j => lasts.getD j 0

theorem idOf_concat {lasts : List Nat} {p : Option Nat} (h : ∀ j, p = some j → j < lasts.length)
    (id : Nat) : idOf (lasts ++ [id]) p = idOf lasts p := by
  cases p with
  | none => rfl
  | some j =>
    rw [idOf, idOf, List.getD_eq_getElem?_getD, List.getD_eq_getElem?_getD,
      List.getElem?_append_left (h j rfl)]

/-- Chains are told apart by their last lines. -/
theorem eq_of_idOf_eq {lasts : List Nat} (hpos : ∀ id ∈ lasts, 0 < id)
    (hlt : lasts.Pairwise (· < ·)) {p q : Option Nat} (hp : ∀ j, p = some j → j < lasts.length)
    (hq : ∀ j, q = some j → j < lasts.length) (h : idOf lasts q = idOf lasts p) : q = p := by
  have hget : ∀ {j} (hj : j < lasts.length), idOf lasts (some j) = lasts[j] := by
    intro j hj
    rw [idOf, List.getD_eq_getElem?_getD, List.getElem?_eq_getElem hj]
    rfl
  have hne : ∀ {j}, j < lasts.length → idOf lasts (some j) ≠ 0 := by
    intro j hj
    rw [hget hj]
    exact Nat.ne_of_gt (hpos _ (List.getElem_mem hj))
  cases p with
  | none =>
    cases q with
    | none => rfl
    | some j => exact absurd h (hne (hq j rfl))
  | some i =>
    have hi := hp i rfl
    cases q with
    | none => exact absurd h.symm (hne hi)
    | some j =>
      have hj := hq j rfl
      rw [hget hi, hget hj] at h
      have hpair := List.pairwise_iff_getElem.1 hlt
      rcases Nat.lt_trichotomy i j with hij | rfl | hij
      · exact absurd h.symm (Nat.ne_of_lt (hpair i j hi hj hij))
      · rfl
      · exact absurd h (Nat.ne_of_lt (hpair j i hj hi hij))

end Levels

open Levels

/-- The outline has one chain for each line, and they lie under one another as the levels of the
lines say. -/
structure Outline.Laid (levels : List Nat) (cs : List (Chain E)) (o : Outline E) : Prop where
  entries : o.entries.toList = Chain.entries 1 cs
  length : cs.length = levels.length
  placed : Chain.Placed 1 cs
  parents : cs.map Chain.parent = (Levels.parents levels).map (idOf (Chain.lasts 1 cs))
  /-- None but the lines at level zero lie under no other. -/
  tops : (Levels.parents levels).map Option.isNone = levels.map (· == 0)
  /-- At each open level there is the last line of the latest chain at that level. -/
  openLines : ∀ level id, o.openLines[level]? = some id →
    ∃ j, latest? level levels = some j ∧ (Chain.lasts 1 cs)[j]? = some id

namespace Outline.Laid

variable {levels : List Nat} {cs : List (Chain E)} {o o' : Outline E} {level id : Nat}
variable {line : Token E}

theorem empty (maxDepth : Nat) : Laid [] [] (Outline.empty maxDepth : Outline E) where
  entries := rfl
  length := rfl
  placed := trivial
  parents := rfl
  tops := rfl
  openLines := nofun

theorem size (h : Laid levels cs o) : o.entries.size = (Chain.entries 1 cs).length := by
  rw [← h.entries, Array.length_toList]

/-- A line at a level lies under the latest line one level above. -/
theorem parentAt (h : Laid levels cs o) (hlevel : level ≤ o.openLines.length) :
    o.parentAt level = idOf (Chain.lasts 1 cs) (above? levels level) ∧
      (o.parentAt level < 1 ∨ o.parentAt level ∈ Chain.lasts 1 cs) ∧
      (above? levels level).isNone = (level == 0) := by
  cases level with
  | zero => exact ⟨rfl, .inl Nat.one_pos, rfl⟩
  | succ level =>
    have hget := List.getElem?_eq_getElem hlevel
    obtain ⟨j, hj, hid⟩ := h.openLines level _ hget
    have hp : o.parentAt (level + 1) = o.openLines[level] := by
      rw [Outline.parentAt, List.getD_eq_getElem?_getD, hget]
      rfl
    rw [hp, above?, hj, idOf, List.getD_eq_getElem?_getD, hid]
    exact ⟨rfl, .inr (List.mem_of_getElem? hid), rfl⟩

theorem has_parentAt (h : Laid levels cs o) (hlevel : level ≤ o.openLines.length) :
    o.has (o.parentAt level) = true := by
  have hle : o.parentAt level ≤ o.entries.size := by
    rcases (h.parentAt hlevel).2.1 with hlt | hmem
    · exact Nat.le_trans (Nat.le_of_lt_succ hlt) (Nat.zero_le _)
    · have hlt := Chain.lt_of_mem_lasts hmem
      rw [Nat.add_comm] at hlt
      rw [h.size]
      exact Nat.le_of_lt_succ hlt
  exact decide_eq_true hle

/-- One more chain, at a level. -/
theorem follow (h : Laid levels cs o) (ho : o.openLine level line = .ok (o', id))
    (lines : List (Token E)) : Laid (levels ++ [level]) (cs ++ [⟨o.parentAt level, line, lines⟩])
      (o'.follow id lines).1 := by
  obtain ⟨hentries, hopen, -⟩ := follow_openLine ho lines
  obtain ⟨hlevel, -, -⟩ := openLine_eq_ok ho
  obtain ⟨hparent, hplace, htop⟩ := h.parentAt hlevel
  have hlasts := Chain.lasts_concat 1 cs ⟨o.parentAt level, line, lines⟩
  have hlength : (Chain.lasts 1 cs).length = levels.length := by
    rw [Chain.length_lasts, h.length]
  refine ⟨?_, ?_, h.placed.concat hplace, ?_, ?_, ?_⟩
  · rw [hentries, h.entries, Chain.entries_concat, h.size, Nat.add_comm 1]
  · rw [List.length_append, List.length_append, h.length]
    rfl
  · rw [List.map_append, h.parents, parents_concat, List.map_append, hlasts]
    refine congr (congrArg _ (List.map_congr_left fun p hp ↦ ?_)) ?_
    · exact (idOf_concat (fun j hj ↦ hlength ▸ lt_of_mem_parents (hj ▸ hp)) _).symm
    · rw [List.map_singleton, List.map_singleton, hparent,
        idOf_concat fun j hj ↦ hlength ▸ lt_of_above hj]
  · rw [parents_concat, List.map_append, List.map_append, h.tops, List.map_singleton,
      List.map_singleton, htop]
  · intro k id' hk
    rw [hopen] at hk
    have htake : (o.openLines.take level).length = level := by
      rw [List.length_take]
      exact Nat.min_eq_left hlevel
    rw [latest_concat, hlasts]
    rcases Nat.lt_trichotomy k level with hlt | rfl | hgt
    · rw [List.getElem?_append_left (by omega), List.getElem?_take_of_lt hlt] at hk
      obtain ⟨j, hj, hid⟩ := h.openLines k id' hk
      refine ⟨j, by rw [if_neg (Nat.ne_of_gt hlt), hj], ?_⟩
      rwa [List.getElem?_append_left (hlength ▸ latest_lt hj)]
    · refine ⟨levels.length, if_pos rfl, ?_⟩
      rw [List.getElem?_append_right (Nat.le_of_eq htake), htake, Nat.sub_self] at hk
      rw [List.getElem?_append_right (Nat.le_of_eq hlength), hlength, Nat.sub_self, ← hk, h.size,
        Nat.add_comm _ 1]
      rfl
    · rw [List.getElem?_append_right (by omega), htake] at hk
      have : k - level = (k - level - 1) + 1 := by omega
      rw [this] at hk
      contradiction

/-- The tree of each line: its chain, with the trees of the lines that lie under it. -/
theorem finish (h : Laid levels cs o) : ∃ ts : List (Token E), ts.length = levels.length ∧
    o.finish.children = under 0 levels ts ∧
    ∀ i c, cs[i]? = some c →
      ts[i]? = some (nest (under (some i) (Levels.parents levels) ts) c.line c.followers) := by
  obtain ⟨ts, hts, hroot⟩ := finish_of_chains h.placed h.entries
  have hlength : (Chain.lasts 1 cs).length = levels.length := by
    rw [Chain.length_lasts, h.length]
  have hunder : ∀ p : Option Nat, (∀ j, p = some j → j < levels.length) →
      under (idOf (Chain.lasts 1 cs) p) (cs.map Chain.parent) ts =
        under p (Levels.parents levels) ts := by
    intro p hp
    rw [h.parents]
    refine under_map (fun q hq heq ↦ ?_) ts
    refine eq_of_idOf_eq (fun id hid ↦ Chain.le_of_mem_lasts hid) (Chain.pairwise_lasts 1 cs)
      (fun j hj ↦ hlength ▸ hp j hj) (fun j hj ↦ ?_) heq
    exact hlength ▸ lt_of_mem_parents (hj ▸ hq)
  refine ⟨ts, ?_, ?_, fun i c hc ↦ ?_⟩
  · rw [hts, List.length_map, List.length_zip, hlength, h.length, Nat.min_self]
  · have htops : under none (Levels.parents levels) ts = under 0 levels ts := by
      have hnone : ∀ q ∈ Levels.parents levels, q.isNone = (none : Option Nat).isNone → q = none :=
        fun q _ hq ↦ Option.isNone_iff_eq_none.1 hq
      have hzero : ∀ l ∈ levels, (l == 0) = ((0 : Nat) == 0) → l = 0 :=
        fun l _ hl ↦ by simpa using hl
      rw [← under_map hnone, h.tops]
      exact under_map hzero ts
    rw [hroot, ← htops, ← hunder none nofun]
    rfl
  · have hi : i < levels.length := by
      rw [← h.length]
      exact (List.getElem?_eq_some_iff.1 hc).1
    have hlast : (Chain.lasts 1 cs)[i]? = some (idOf (Chain.lasts 1 cs) (some i)) := by
      rw [idOf, List.getD_eq_getElem?_getD, List.getElem?_eq_getElem (hlength ▸ hi)]
      rfl
    rw [← hunder (some i) fun j hj ↦ (Option.some.inj hj) ▸ hi]
    refine (congrArg (fun us ↦ us[i]?) hts).trans ?_
    have hzip : (cs.zip (Chain.lasts 1 cs))[i]? = some (c, idOf (Chain.lasts 1 cs) (some i)) :=
      List.getElem?_zip_eq_some.2 ⟨hc, hlast⟩
    rw [List.getElem?_map, hzip]
    rfl

end Outline.Laid

end Pug

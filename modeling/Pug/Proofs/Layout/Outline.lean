import Pug.Layout.Outline
import Pug.Proofs.Token.Leaves

/-!
# Outlines and the order of their lines

Lines are added under lines that are still open, so the tree of an outline has its lines in the
order in which they were added. What keeps this order is the *spine* of an outline: the last line,
the line it lies under, and so on up to the whole template. Every line is added under a line of the
spine, and from there on a new spine goes out.

The lines are folded from the last to the first. What is then still to be placed lies under the
lines of the spine, and read from the inner end of the spine outwards it is what was added later.
-/

namespace Pug.Outline

open Token

variable {E β : Type}

/-- The spine of an outline whose lines lie under these lines, its inner end first. -/
inductive Spine : List Nat → List Nat → Prop where
  | start : Spine [] [0]
  | add {parents deeper above : List Nat} {p : Nat}
      (spine : Spine parents (deeper ++ p :: above)) :
      Spine (parents ++ [p]) ((parents.length + 1) :: p :: above)

namespace Spine

variable {parents spine : List Nat}

theorem le (h : Spine parents spine) : ∀ q ∈ spine, q ≤ parents.length := by
  induction h with
  | start => simp
  | @add parents deeper above p _ ih =>
    intro q hq
    rw [List.length_append, List.length_singleton]
    rcases List.mem_cons.1 hq with rfl | hq
    · exact Nat.le_refl _
    · exact Nat.le_succ_of_le (ih q (List.mem_append_right _ hq))

/-- Numbers fall along the spine. -/
theorem pairwise (h : Spine parents spine) : spine.Pairwise (· > ·) := by
  induction h with
  | start => exact List.pairwise_singleton ..
  | @add parents deeper above p h ih =>
    refine .cons (fun q hq ↦ ?_) (List.pairwise_append.1 ih).2.1
    exact Nat.lt_succ_of_le (h.le q (List.mem_append_right _ hq))

/-- The outer end of the spine is the whole template. -/
theorem zero_mem (h : Spine parents spine) : 0 ∈ spine := by
  induction h with
  | start => exact List.mem_singleton_self 0
  | @add parents deeper above p h ih =>
    refine List.mem_cons_of_mem _ ((List.mem_append.1 ih).resolve_left fun hd ↦ ?_)
    exact Nat.not_lt_zero p ((List.pairwise_append.1 h.pairwise).2.2 0 hd p (List.mem_cons_self ..))

/-- Open lines that start at a line of the spine go on outwards from there. -/
theorem sublist_of_cons {deeper above open_ : List Nat} {p : Nat}
    (h : Spine parents (deeper ++ p :: above))
    (ho : (p :: open_).Sublist (deeper ++ p :: above)) : (p :: open_).Sublist (p :: above) := by
  have hp : ∀ q ∈ deeper, p < q := fun q hq ↦
    (List.pairwise_append.1 h.pairwise).2.2 q hq p (List.mem_cons_self ..)
  clear h
  induction deeper with
  | nil => exact ho
  | cons q deeper ih =>
    cases ho with
    | cons _ ho => exact ih ho fun r hr ↦ hp r (List.mem_cons_of_mem _ hr)
    | cons_cons _ _ => exact absurd (hp p (List.mem_cons_self ..)) (Nat.lt_irrefl p)

end Spine

/-- The lines that the lines of an outline lie under. -/
def parents (o : Outline E) : List Nat :=
  o.entries.toList.map Entry.parent

/-- The spine of an outline, with the open lines on it. -/
structure HasSpine (o : Outline E) (ids : List Nat) : Prop where
  spine : Spine o.parents ids
  openLines : o.openLines.reverse.Sublist ids

@[simp] theorem length_parents (o : Outline E) : o.parents.length = o.entries.size := by
  simp [parents]

@[simp] theorem parents_add (o : Outline E) (parent : Nat) (line : Token E) :
    (o.add parent line).1.parents = o.parents ++ [parent] := by
  simp [parents, add]

@[simp] theorem size_attachToPayload (entries : Array (Entry E)) (id : Nat) :
    (attachToPayload entries id).size = entries.size := by
  cases id <;> simp [attachToPayload]

/-- Where the lines under a line go changes nothing else. -/
theorem map_attachToPayload {f : Entry E → β} (entries : Array (Entry E)) (id : Nat)
    (hf : ∀ e, f { e with attach := .payload } = f e) :
    (attachToPayload entries id).toList.map f = entries.toList.map f := by
  cases id with
  | zero => rfl
  | succ n =>
    apply List.ext_getElem
    · simp [attachToPayload]
    · intro i h₁ h₂
      simp only [attachToPayload, List.getElem_map, Array.getElem_toList, Array.getElem_modify]
      split
      · exact hf _
      · rfl

@[simp] theorem parents_expand (o : Outline E) (owner : Nat) (line : Token E) :
    (o.expand owner line).1.parents = o.parents ++ [owner] := by
  rw [← parents_add o owner line]
  exact map_attachToPayload _ owner fun _ ↦ rfl

/-- What opening a line at a level does. -/
theorem openLine_eq_ok {o o' : Outline E} {level : Nat} {line : Token E} {id : Nat}
    (h : o.openLine level line = .ok (o', id)) : level ≤ o.openLines.length ∧
      id = o.entries.size + 1 ∧
      o' = { (o.add (o.parentAt level) line).1 with openLines := o.openLines.take level ++ [id] } := by
  have hlen := length_openLines_of_openLine h
  unfold openLine at h
  split at h
  · contradiction
  · cases h
    refine ⟨?_, rfl, rfl⟩
    rw [List.length_append, List.length_take, List.length_singleton] at hlen
    omega

namespace HasSpine

variable {o o' : Outline E} {spine : List Nat} {owner id : Nat} {level : Nat}
variable {line : Token E}

theorem empty (maxDepth : Nat) : HasSpine (Outline.empty maxDepth : Outline E) [0] :=
  ⟨.start, List.nil_sublist _⟩

/-- The lines of the spine have been added. -/
theorem has (h : HasSpine o spine) (hid : id ∈ spine) : o.has id = true := by
  have hle := h.spine.le id hid
  rw [length_parents] at hle
  simpa [Outline.has] using hle

theorem parentAt_mem (h : HasSpine o spine) (level : Nat) : o.parentAt level ∈ spine := by
  cases level with
  | zero => exact h.spine.zero_mem
  | succ level =>
    rw [parentAt, List.getD_eq_getElem?_getD]
    cases hx : o.openLines[level]? with
    | none => exact h.spine.zero_mem
    | some id =>
      have hmem : id ∈ o.openLines.reverse := List.mem_reverse.2 (List.mem_of_getElem? hx)
      exact h.openLines.subset hmem

/-- The line that a line is added under splits the spine. -/
theorem add (h : HasSpine o spine) (hp : owner ∈ spine) (line : Token E) : ∃ deeper above,
    spine = deeper ++ owner :: above ∧
      Spine (o.add owner line).1.parents ((o.entries.size + 1) :: owner :: above) := by
  obtain ⟨deeper, above, rfl⟩ := List.append_of_mem hp
  refine ⟨deeper, above, rfl, ?_⟩
  rw [parents_add, ← length_parents]
  exact .add h.spine

theorem openLine (h : HasSpine o spine) (ho : o.openLine level line = .ok (o', id)) :
    ∃ spine', HasSpine o' spine' ∧ o'.openLines.getLast? = some id := by
  obtain ⟨hlevel, hid, rfl⟩ := openLine_eq_ok ho
  obtain ⟨deeper, above, hspine, hs⟩ := h.add (h.parentAt_mem level) line
  refine ⟨_, ⟨hs, ?_⟩, by simp⟩
  -- The lines around stay open, and the innermost of them is the one that the line lies under.
  simp only [List.reverse_append, List.reverse_singleton, List.singleton_append, hid]
  refine .cons_cons _ ?_
  cases level with
  | zero => simp
  | succ level =>
    have hx : o.openLines[level]? = some (o.parentAt (level + 1)) := by
      rw [parentAt, List.getD_eq_getElem?_getD, List.getElem?_eq_getElem hlevel]
      rfl
    have ht : (o.openLines.take (level + 1)).reverse =
        o.parentAt (level + 1) :: (o.openLines.take level).reverse := by
      rw [List.take_add_one, hx]
      simp
    have hsub : (o.openLines.take (level + 1)).reverse.Sublist spine :=
      ((List.take_sublist _ _).reverse).trans h.openLines
    rw [ht, hspine] at hsub
    rw [ht]
    exact (hspine ▸ h.spine).sublist_of_cons hsub

/-- An open line that is the innermost one starts the open lines, read from within. -/
theorem reverse_eq_cons (hl : o.openLines.getLast? = some owner) :
    o.openLines.reverse = owner :: o.openLines.dropLast.reverse := by
  obtain ⟨open_, ho⟩ := List.getLast?_eq_some_iff.1 hl
  rw [ho]
  simp

theorem expand (h : HasSpine o spine) (hl : o.openLines.getLast? = some owner) (line : Token E) :
    ∃ spine', HasSpine (o.expand owner line).1 spine' ∧
      (o.expand owner line).1.openLines.getLast? = some (o.expand owner line).2 := by
  have ho : (o.expand owner line).1.openLines = o.openLines.dropLast ++ [o.entries.size + 1] := by
    simp only [Outline.expand, takeOver, if_pos hl]
    rfl
  have hsub := h.openLines
  rw [reverse_eq_cons hl] at hsub
  obtain ⟨deeper, above, rfl, hs⟩ := h.add (hsub.subset (List.mem_cons_self ..)) line
  refine ⟨_, ⟨by simpa using hs, ?_⟩, ?_⟩
  · rw [ho, List.reverse_append]
    refine .cons_cons _ (.cons _ ?_)
    exact List.cons_sublist_cons.1 (h.spine.sublist_of_cons hsub)
  · rw [ho]
    simp [Outline.expand, Outline.add]

/-- A line added under the innermost open line leaves the open lines as they are. -/
theorem append (h : HasSpine o spine) (hl : o.openLines.getLast? = some owner) :
    ∃ spine', HasSpine (o.append owner line).1 spine' := by
  have hsub := h.openLines
  rw [reverse_eq_cons hl] at hsub
  have hmem : owner ∈ spine := hsub.subset (List.mem_cons_self ..)
  obtain ⟨deeper, above, rfl, hs⟩ := h.add hmem line
  refine ⟨_, hs, ?_⟩
  change o.openLines.reverse.Sublist _
  rw [reverse_eq_cons hl]
  exact .cons _ (h.spine.sublist_of_cons hsub)

end HasSpine

section Fold

/-- Adding a line in front of the lines under `p` leaves the others as they are. -/
theorem getD_modify {nested : Array (List (Token E))} {p : Nat} (hp : p < nested.size)
    (line : Token E) (q : Nat) :
    (nested.modify p (line :: ·)).getD q [] =
      if q = p then line :: nested.getD q [] else nested.getD q [] := by
  simp only [Array.getD_eq_getD_getElem?, Array.getElem?_modify]
  by_cases h : p = q
  · subst h
    rw [if_pos rfl, if_pos rfl, Array.getElem?_eq_getElem hp]
    rfl
  · rw [if_neg h, if_neg (Ne.symm h)]

variable {flat : List (Token E) → List β} {entries : Array (Entry E)}
variable {Later : Nat → Token E → Prop} {nested : Array (List (Token E))}

/-- Folding lines in the order in which they were added keeps what is read off them in that order,
if it does so for a line and the lines under it. -/
theorem flat_fold (hflat : ∀ ts us, flat (ts ++ us) = flat ts ++ flat us)
    (hclose : ∀ n e ns, entries[n]? = some e → (∀ u ∈ ns, Later n u) →
      flat [e.close ns] = flat [e.token] ++ flat ns)
    (hlater : ∀ m n e ns, m < n → entries[n]? = some e → Later m (e.close ns))
    {parents spine others : List Nat} (h : Spine parents spine)
    (hp : entries.toList.map Entry.parent = parents ++ others)
    (hsize : parents.length < nested.size)
    (hspine : ∀ q ≤ parents.length, q ∉ spine → nested.getD q [] = [])
    (hnested : ∀ q, ∀ u ∈ nested.getD q [], ∀ m < parents.length, Later m u) :
    flat ((fold entries parents.length nested).getD 0 []) =
      flat ((entries.toList.take parents.length).map Entry.token) ++
        spine.flatMap fun q ↦ flat (nested.getD q []) := by
  have hnil : flat [] = [] := by
    have := congrArg List.length (hflat [] [])
    rw [List.append_nil, List.length_append] at this
    exact List.length_eq_zero_iff.1 (by omega)
  induction h generalizing nested others with
  | start => simp [fold, hnil]
  | @add parents deeper above p h ih =>
    obtain ⟨e, he, hep⟩ : ∃ e, entries[parents.length]? = some e ∧ e.parent = p := by
      have : (entries.toList.map Entry.parent)[parents.length]? = some p := by
        rw [hp]
        simp
      simpa using this
    have hpair := List.pairwise_append.1 h.pairwise
    have hpn : p ≤ parents.length := h.le p (List.mem_append_right _ (List.mem_cons_self ..))
    rw [List.length_append, List.length_singleton] at hsize hspine hnested ⊢
    have hget := getD_modify (show p < nested.size by omega)
      (e.close (nested.getD (parents.length + 1) []))
    -- One step of the fold puts the last line in front of the lines under `p`.
    have hfold : fold entries (parents.length + 1) nested = fold entries parents.length
        (nested.modify p (e.close (nested.getD (parents.length + 1) []) :: ·)) := by
      simp only [fold, he, hep]
    rw [hfold, ih (by simpa using hp) (by simpa using by omega) ?_ ?_]
    · -- Nothing is left under the lines that the new spine has turned off from.
      have hdeeper : deeper.flatMap (fun q ↦ flat ((nested.modify p
          (e.close (nested.getD (parents.length + 1) []) :: ·)).getD q [])) = [] := by
        refine List.flatMap_eq_nil_iff.2 fun q hq ↦ ?_
        have hqp := hpair.2.2 q hq
        have hqn := h.le q (List.mem_append_left _ hq)
        rw [hget, if_neg (Nat.ne_of_gt (hqp p (List.mem_cons_self ..))),
          hspine q (by omega) fun hm ↦ ?_, hnil]
        rcases List.mem_cons.1 hm with rfl | hm
        · omega
        · exact Nat.lt_irrefl q (hqp q hm)
      have habove : above.flatMap (fun q ↦ flat ((nested.modify p
          (e.close (nested.getD (parents.length + 1) []) :: ·)).getD q [])) =
            above.flatMap fun q ↦ flat (nested.getD q []) := by
        rw [List.flatMap_def, List.flatMap_def]
        refine congrArg List.flatten (List.map_congr_left fun q hq ↦ ?_)
        have hqp : p > q := (List.pairwise_cons.1 hpair.2.1).1 q hq
        rw [hget, if_neg (Nat.ne_of_lt hqp)]
      have htake : entries.toList.take (parents.length + 1) =
          entries.toList.take parents.length ++ [e] := by
        rw [List.take_add_one]
        simpa using he
      have hline : flat (e.close (nested.getD (parents.length + 1) []) :: nested.getD p []) =
          flat [e.token] ++ (flat (nested.getD (parents.length + 1) []) ++ flat (nested.getD p [])) := by
        rw [← List.singleton_append, hflat, hclose parents.length e _ he, List.append_assoc]
        exact fun u hu ↦ hnested _ u hu _ (Nat.lt_succ_self _)
      rw [List.flatMap_append, hdeeper, List.flatMap_cons, habove, hget, if_pos rfl, hline, htake,
        List.map_append, hflat, List.flatMap_cons, List.flatMap_cons]
      simp
    · intro q hq hqs
      rw [List.mem_append, not_or, List.mem_cons, not_or] at hqs
      rw [hget, if_neg hqs.2.1]
      refine hspine q (by omega) fun hm ↦ ?_
      rcases List.mem_cons.1 hm with rfl | hm
      · omega
      · exact (List.mem_cons.1 hm).elim hqs.2.1 hqs.2.2
    · intro q u hu m hm
      rw [hget] at hu
      split at hu
      · rcases List.mem_cons.1 hu with rfl | hu
        · exact hlater m _ e _ hm he
        · exact hnested _ u hu m (by omega)
      · exact hnested _ u hu m (by omega)

end Fold

section Finish

variable {o : Outline E} {ids : List Nat}

/-- The lines of an outline, in the order in which they were added. -/
def tokens (o : Outline E) : List (Token E) :=
  o.entries.toList.map Entry.token

@[simp] theorem tokens_add (o : Outline E) (parent : Nat) (line : Token E) :
    (o.add parent line).1.tokens = o.tokens ++ [line] := by
  simp [tokens, add]

@[simp] theorem tokens_expand (o : Outline E) (owner : Nat) (line : Token E) :
    (o.expand owner line).1.tokens = o.tokens ++ [line] := by
  rw [← tokens_add o owner line]
  exact map_attachToPayload _ owner fun _ ↦ rfl

theorem tokens_openLine {o' : Outline E} {level : Nat} {line : Token E} {id : Nat}
    (h : o.openLine level line = .ok (o', id)) : o'.tokens = o.tokens ++ [line] := by
  obtain ⟨-, -, rfl⟩ := openLine_eq_ok h
  exact tokens_add o _ line

/-- What is read off the tree of an outline is what is read off its lines, one after the other. -/
theorem flat_finish {flat : List (Token E) → List β} (Later : Nat → Token E → Prop)
    (h : o.HasSpine ids) (hflat : ∀ ts us, flat (ts ++ us) = flat ts ++ flat us)
    (hclose : ∀ n e ns, o.entries[n]? = some e → (∀ u ∈ ns, Later n u) →
      flat [e.close ns] = flat [e.token] ++ flat ns)
    (hlater : ∀ m n e ns, m < n → o.entries[n]? = some e → Later m (e.close ns)) :
    flat o.finish.children = flat o.tokens := by
  have hnil : ∀ q : Nat, (Array.replicate (o.entries.size + 1) ([] : List (Token E))).getD q [] =
      [] := by
    intro q
    rw [Array.getD_eq_getD_getElem?, Array.getElem?_replicate]
    split <;> rfl
  have hsize : o.parents.length <
      (Array.replicate (o.entries.size + 1) ([] : List (Token E))).size := by
    rw [length_parents, Array.size_replicate]
    exact Nat.lt_succ_self _
  have hfold := flat_fold hflat hclose hlater h.spine (List.append_nil o.parents).symm hsize
    (fun q _ _ ↦ hnil q) (fun q u hu ↦ by rw [hnil] at hu; contradiction)
  have hflatnil : flat [] = [] := by
    have := congrArg List.length (hflat [] [])
    rw [List.append_nil, List.length_append] at this
    exact List.length_eq_zero_iff.1 (by omega)
  have htake : o.entries.toList.take o.entries.size = o.entries.toList :=
    List.take_of_length_le (by simp)
  have hspine : ids.flatMap (fun q ↦ flat ((Array.replicate (o.entries.size + 1) []).getD q [])) =
      [] := by
    simp [hnil, hflatnil]
  rw [length_parents, hspine, htake, List.append_nil] at hfold
  exact hfold

theorem bares_extend (t : Token E) (ns : List (Token E)) :
    bares [extend t ns] = bares [t] ++ bares ns := by
  simp [bares, extend, bare]

theorem leafSpansAll_extend {t : Token E} {ns : List (Token E)}
    (h : ∀ x ∈ apart? t.span t.expr, ∀ u ∈ ns.head?, x.start ≤ u.span.start) :
    leafSpansAll [extend t ns] = leafSpansAll [t] ++ leafSpansAll ns := by
  simp only [leafSpansAll_cons, leafSpansAll_nil, leafSpans_eq, extend, List.append_nil]
  rw [leafSpansBelow_append _ h, List.append_assoc]

/-- Lines under what a line says come behind it, whether it is wrapped or not. -/
theorem bares_extendPayload {payload : Token E} (h : payload.WrapsTag) (ns : List (Token E)) :
    bares [extendPayload payload ns] = bares [payload] ++ bares ns := by
  unfold extendPayload
  split
  · rename_i tag others hk hc
    obtain ⟨-, tag, ht, -⟩ := h hk
    rw [hc] at ht
    cases ht
    simp [bares, extend, bare, hc]
  · exact bares_extend payload ns

theorem leafSpansAll_extendPayload {payload : Token E} (h : payload.WrapsTag) {ns : List (Token E)}
    (hn : ∀ x ∈ apart? payload.span payload.expr, ∀ u ∈ ns.head?, x.start ≤ u.span.start) :
    leafSpansAll [extendPayload payload ns] = leafSpansAll [payload] ++ leafSpansAll ns := by
  unfold extendPayload
  split
  · rename_i tag others hk hc
    obtain ⟨hx, tag, ht, htx⟩ := h hk
    rw [hc] at ht
    cases ht
    have hk : payload.kind.isContainer = true := by rw [hk]; rfl
    rw [leafSpansAll_container (t := { payload with children := [extend tag ns] }) hk hx,
      leafSpansAll_container hk hx, hc]
    exact leafSpansAll_extend (by simp [htx, apart?])
  · exact leafSpansAll_extend hn

theorem bares_close {e : Entry E} (h : IsLine e.token) (ns : List (Token E)) :
    bares [e.close ns] = bares [e.token] ++ bares ns := by
  obtain ⟨payload, hc, hw⟩ := h.children
  unfold Entry.close
  split
  · rename_i hp
    rw [hc] at hp
    cases hp
    have := bares_extendPayload hw ns
    simp only [bares, preorderAll_cons, preorderAll_nil, hc, List.append_nil, List.map_cons] at this ⊢
    rw [this]
    rfl
  · exact bares_extend _ ns

theorem leafSpansAll_close {e : Entry E} (h : IsLine e.token) {ns : List (Token E)}
    (hn : ∀ x ∈ leafSpansAll [e.token], ∀ u ∈ ns.head?, x.start ≤ u.span.start) :
    leafSpansAll [e.close ns] = leafSpansAll [e.token] ++ leafSpansAll ns := by
  obtain ⟨payload, hc, hw⟩ := h.children
  have hk : e.token.kind.isContainer = true := by rw [h.kind]; rfl
  rw [leafSpansAll_container hk h.expr, hc] at hn ⊢
  unfold Entry.close
  split
  · rename_i hp
    rw [hc] at hp
    cases hp
    rw [leafSpansAll_container (t := { e.token with children := _ }) hk h.expr]
    refine leafSpansAll_extendPayload hw fun x hx ↦ hn x ?_
    rw [leafSpansAll_cons, leafSpans_eq]
    exact List.mem_append_left _ (List.mem_append_right _ (mem_leafSpansBelow hx _))
  · rw [leafSpansAll_extend (by simp [h.expr, apart?]), leafSpansAll_container hk h.expr, hc]

theorem span_close (e : Entry E) (ns : List (Token E)) : (e.close ns).span = e.token.span := by
  unfold Entry.close
  split <;> rfl

/-- The tree of an outline says what its lines say, one after the other. -/
theorem bares_finish (h : o.HasSpine ids) (hl : ∀ e ∈ o.entries, IsLine e.token) :
    bares o.finish.children = bares o.tokens :=
  flat_finish (fun _ _ ↦ True) h bares_append
    (fun _ _ ns he _ ↦ bares_close (hl _ (Array.mem_of_getElem? he)) ns) fun _ _ _ _ _ _ ↦ trivial

/-- The spans of the tree of an outline are those of its lines, one after the other, if no line
starts before a span of an earlier one. -/
theorem leafSpansAll_finish (h : o.HasSpine ids) (hl : ∀ e ∈ o.entries, IsLine e.token)
    (ho : o.tokens.Pairwise fun t u ↦ ∀ x ∈ leafSpansAll [t], x.start ≤ u.span.start) :
    leafSpansAll o.finish.children = leafSpansAll o.tokens := by
  let Later (n : Nat) (u : Token E) : Prop :=
    ∀ e ∈ o.entries[n]?, ∀ x ∈ leafSpansAll [e.token], x.start ≤ u.span.start
  refine flat_finish Later h leafSpansAll_append (fun n e ns he hns ↦ ?_) ?_
  · refine leafSpansAll_close (hl _ (Array.mem_of_getElem? he)) fun x hx u hu ↦ ?_
    exact hns u (List.mem_of_mem_head? hu) e he x hx
  · intro m n e ns hmn he f hf x hx
    rw [span_close]
    obtain ⟨hm, rfl⟩ := Array.getElem?_eq_some_iff.1 hf
    obtain ⟨hn, rfl⟩ := Array.getElem?_eq_some_iff.1 he
    have hpair := List.pairwise_iff_getElem.1 ho m n (by simpa [tokens] using hm)
      (by simpa [tokens] using hn) hmn
    simp only [tokens, List.getElem_map, Array.getElem_toList] at hpair
    exact hpair x hx

end Finish

end Pug.Outline

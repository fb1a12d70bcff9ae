import Pug.Proofs.Layout.Chain

/-!
# The forest of an outline made of chains

Folding an outline puts the entries, from the last to the first, in front of the lines under their
parents. If the entries come in chains, and every chain lies under the last line of an earlier chain
or under the whole template, then folding makes of each chain its tree, with the trees of the
chains under it in order.
-/

namespace Pug.Outline

open Token

variable {E : Type}

/-- The entries of a chain whose first line has the number `first` and lies under `parent`. -/
def chainEntries : Nat → Nat → Token E → List (Token E) → List (Entry E)
  | parent, _, line, [] => [⟨line, parent, .line⟩]
  | parent, first, line, next :: followers =>
    ⟨line, parent, .payload⟩ :: chainEntries first (first + 1) next followers

@[simp] theorem length_chainEntries (parent first : Nat) (line : Token E)
    (followers : List (Token E)) :
    (chainEntries parent first line followers).length = followers.length + 1 := by
  induction followers generalizing parent first line with
  | nil => rfl
  | cons next followers ih => rw [chainEntries, List.length_cons, ih, List.length_cons]

/-- Puts an entry, closed, in front of the lines under its parent. -/
def put (e : Entry E × Nat) (nested : Array (List (Token E))) : Array (List (Token E)) :=
  nested.modify e.1.parent (e.1.close (nested.getD e.2 []) :: ·)

@[simp] theorem size_put (e : Entry E × Nat) (nested : Array (List (Token E))) :
    (put e nested).size = nested.size := by
  rw [put, Array.size_modify]

@[simp] theorem size_foldr_put (es : List (Entry E × Nat)) (nested : Array (List (Token E))) :
    (es.foldr put nested).size = nested.size := by
  induction es with
  | nil => rfl
  | cons e es ih => rw [List.foldr_cons, size_put, ih]

theorem fold_eq_foldr (entries : Array (Entry E)) (nested : Array (List (Token E))) (n : Nat)
    (hn : n ≤ entries.size) :
    fold entries n nested = ((entries.toList.take n).zipIdx 1).foldr put nested := by
  induction n generalizing nested with
  | zero => simp [fold]
  | succ n ih =>
    have hget : entries[n]? = some entries[n] := Array.getElem?_eq_getElem hn
    rw [fold, hget]
    dsimp only
    rw [ih _ (Nat.le_of_succ_le hn), List.take_add_one]
    have hlist : entries.toList[n]?.toList = [entries[n]] := by
      simp [hget]
    rw [hlist, List.zipIdx_append, List.foldr_append, List.length_take]
    have hlen : min n entries.toList.length = n := by
      simp only [Array.length_toList]
      omega
    rw [hlen, Nat.add_comm 1 n]
    rfl

/-- Folding a chain puts its tree in front of the lines under its parent. -/
theorem foldr_chainEntries {parent first : Nat} (line : Token E) (followers : List (Token E))
    {nested : Array (List (Token E))} (hp : parent < first)
    (hsize : first + followers.length < nested.size)
    (hempty : ∀ q, first ≤ q → q < first + followers.length → nested.getD q [] = []) {q : Nat}
    (hq : q < first) :
    (((chainEntries parent first line followers).zipIdx first).foldr put nested).getD q [] =
      (if q = parent then
        [nest (nested.getD (first + followers.length) []) line followers] else []) ++
        nested.getD q [] := by
  induction followers generalizing parent first line q with
  | nil =>
    simp only [List.length_nil, Nat.add_zero] at hsize ⊢
    change (put (⟨line, parent, .line⟩, first) nested).getD q [] = _
    rw [put, getD_modify (show parent < nested.size by omega)]
    split <;> rfl
  | cons next followers ih =>
    rw [List.length_cons] at hsize hempty ⊢
    have hinner : ∀ {q}, q < first + 1 → _ := ih next (Nat.lt_succ_self first) (by omega)
      fun q hl hh ↦ hempty q (by omega) (by omega)
    have hfirst := hinner (Nat.lt_succ_self first)
    rw [if_pos rfl, hempty first (Nat.le_refl _) (by omega)] at hfirst
    have hq' := hinner (Nat.lt_succ_of_lt hq)
    rw [if_neg (Nat.ne_of_lt hq)] at hq'
    rw [chainEntries, List.zipIdx_cons, List.foldr_cons, put, getD_modify ?_, hq']
    · dsimp only
      rw [hfirst, Nat.succ_add, ← Nat.add_succ]
      split <;> rfl
    · rw [size_foldr_put]
      change parent < nested.size
      omega

section Under

variable {α β γ : Type} [DecidableEq α] [DecidableEq γ] {p q : α} {ps : List α} {t : β} {ts : List β}

/-- Those of some things, each with what it lies under, that lie under `p`. -/
def under (p : α) (ps : List α) (ts : List β) : List β :=
  ((ps.zip ts).filter fun x ↦ x.1 = p).map Prod.snd

theorem under_cons :
    under p (q :: ps) (t :: ts) = (if p = q then [t] else []) ++ under p ps ts := by
  rw [under, List.zip_cons_cons, List.filter_cons]
  by_cases h : q = p
  · simp [under, h]
  · simp [under, h, Ne.symm h]

theorem under_eq_nil (h : p ∉ ps) : under p ps ts = [] := by
  rw [under, List.map_eq_nil_iff, List.filter_eq_nil_iff]
  rintro ⟨q, t⟩ hx hq
  rw [decide_eq_true_eq] at hq
  rw [← hq] at h
  exact h (List.of_mem_zip hx).1

theorem mem_of_mem_under (h : t ∈ under p ps ts) : t ∈ ts := by
  obtain ⟨x, hx, rfl⟩ := List.mem_map.1 h
  exact (List.of_mem_zip (List.mem_filter.1 hx).1).2

/-- What things lie under may go by other names. -/
theorem under_map {f : α → γ} (hf : ∀ q ∈ ps, f q = f p → q = p) (ts : List β) :
    under (f p) (ps.map f) ts = under p ps ts := by
  induction ps generalizing ts with
  | nil => rfl
  | cons q ps ih =>
    rw [List.forall_mem_cons] at hf
    cases ts with
    | nil => rfl
    | cons t ts =>
      rw [List.map_cons, under_cons, under_cons, ih hf.2]
      by_cases h : p = q
      · rw [if_pos h, if_pos (congrArg f h)]
      · rw [if_neg h, if_neg fun hfp ↦ h (hf.1 hfp.symm).symm]

end Under

/-- A chain of an outline: the line that it lies under, its first line, and those that follow. -/
structure Chain (E : Type) where
  parent : Nat
  line : Token E
  followers : List (Token E)

namespace Chain

variable {first : Nat} {c d : Chain E} {cs : List (Chain E)}

/-- The number of the last line of a chain. -/
def last (first : Nat) (c : Chain E) : Nat :=
  first + c.followers.length

/-- The numbers of the last lines of chains that are numbered one after the other. -/
def lasts : Nat → List (Chain E) → List Nat
  | _, [] => []
  | first, c :: cs => c.last first :: lasts (c.last first + 1) cs

/-- The entries of chains that are numbered one after the other. -/
def entries : Nat → List (Chain E) → List (Entry E)
  | _, [] => []
  | first, c :: cs =>
    chainEntries c.parent first c.line c.followers ++ entries (c.last first + 1) cs

theorem length_entries_cons : (entries first (c :: cs)).length =
    c.followers.length + 1 + (entries (c.last first + 1) cs).length := by
  rw [entries, List.length_append, length_chainEntries]

theorem entries_concat (first : Nat) (cs : List (Chain E)) (d : Chain E) :
    entries first (cs ++ [d]) = entries first cs ++
      chainEntries d.parent (first + (entries first cs).length) d.line d.followers := by
  induction cs generalizing first with
  | nil => exact List.append_nil _
  | cons c cs ih =>
    rw [length_entries_cons, List.cons_append, entries, entries, ih, List.append_assoc, last]
    simp only [Nat.add_assoc]

theorem lasts_concat (first : Nat) (cs : List (Chain E)) (d : Chain E) :
    lasts first (cs ++ [d]) = lasts first cs ++ [d.last (first + (entries first cs).length)] := by
  induction cs generalizing first with
  | nil => rfl
  | cons c cs ih =>
    rw [length_entries_cons, List.cons_append, lasts, lasts, ih, List.cons_append, last, last]
    simp only [Nat.add_assoc, last]

/-- Every chain lies under the last line of an earlier one, or under a line before them all. -/
def Placed : Nat → List (Chain E) → Prop
  | _, [] => True
  | first, c :: cs =>
    c.parent < first ∧ (∀ d ∈ cs, d.parent < first ∨ c.last first ≤ d.parent) ∧
      Placed (c.last first + 1) cs

theorem le_last (first : Nat) (c : Chain E) : first ≤ c.last first :=
  Nat.le_add_right _ _

@[simp] theorem length_lasts (first : Nat) (cs : List (Chain E)) :
    (lasts first cs).length = cs.length := by
  induction cs generalizing first with
  | nil => rfl
  | cons c cs ih => rw [lasts, List.length_cons, ih, List.length_cons]

theorem le_of_mem_lasts {id : Nat} (h : id ∈ lasts first cs) : first ≤ id := by
  induction cs generalizing first with
  | nil => contradiction
  | cons c cs ih =>
    have hle := c.le_last first
    rcases List.mem_cons.1 h with rfl | h
    · exact hle
    · have := ih h
      omega

theorem lt_of_mem_lasts {id : Nat} (h : id ∈ lasts first cs) :
    id < first + (entries first cs).length := by
  induction cs generalizing first with
  | nil => contradiction
  | cons c cs ih =>
    have hlast : c.last first = first + c.followers.length := rfl
    rw [length_entries_cons]
    rcases List.mem_cons.1 h with rfl | h
    · omega
    · have := ih h
      omega

/-- The last lines come in the order of the chains. -/
theorem pairwise_lasts (first : Nat) (cs : List (Chain E)) :
    (lasts first cs).Pairwise (· < ·) := by
  induction cs generalizing first with
  | nil => exact .nil
  | cons c cs ih => exact .cons (fun id hid ↦ le_of_mem_lasts hid) (ih _)

/-- A chain under the last line of another one, or under a line before them all. -/
theorem Placed.concat (h : Placed first cs) (hd : d.parent < first ∨ d.parent ∈ lasts first cs) :
    Placed first (cs ++ [d]) := by
  induction cs generalizing first with
  | nil => exact ⟨hd.resolve_right List.not_mem_nil, nofun, trivial⟩
  | cons c cs ih =>
    obtain ⟨hc, hcs, hrest⟩ := h
    have hle := c.le_last first
    rw [lasts, List.mem_cons] at hd
    refine ⟨hc, fun e he ↦ ?_, ih hrest ?_⟩
    · rcases List.mem_append.1 he with he | he
      · exact hcs e he
      · rw [List.mem_singleton.1 he]
        rcases hd with hd | hd | hd
        · exact .inl hd
        · exact .inr (Nat.le_of_eq hd.symm)
        · exact .inr (Nat.le_of_succ_le (le_of_mem_lasts hd))
    · rcases hd with hd | hd | hd
      · exact .inl (by omega)
      · exact .inl (by omega)
      · exact .inr hd

/-- The trees of chains: each with the trees of those chains under its innermost line that lie under
its last. -/
def Trees (first : Nat) (cs : List (Chain E)) (ts : List (Token E)) : Prop :=
  ts = (cs.zip (lasts first cs)).map fun x ↦
    nest (under x.2 (cs.map parent) ts) x.1.line x.1.followers

/-- No chain is among those under the last line of a later one. -/
theorem trees_cons {t : Token E} {ts : List (Token E)} (h : c.parent < first) :
    Trees first (c :: cs) (t :: ts) ↔
      t = nest (under (c.last first) (cs.map parent) ts) c.line c.followers ∧
        Trees (c.last first + 1) cs ts := by
  have hle := c.le_last first
  have hunder : ∀ q, first ≤ q →
      under q ((c :: cs).map parent) (t :: ts) = under q (cs.map parent) ts := by
    intro q hq
    rw [List.map_cons, under_cons, if_neg (by omega), List.nil_append]
  have hlater : (cs.zip (lasts (c.last first + 1) cs)).map (fun x ↦
        nest (under x.2 ((c :: cs).map parent) (t :: ts)) x.1.line x.1.followers) =
      (cs.zip (lasts (c.last first + 1) cs)).map fun x ↦
        nest (under x.2 (cs.map parent) ts) x.1.line x.1.followers := by
    refine List.map_congr_left fun x hx ↦ ?_
    have hlast := le_of_mem_lasts (List.of_mem_zip hx).2
    rw [hunder x.2 (by omega)]
  rw [Trees, lasts, List.zip_cons_cons, List.map_cons, List.cons_eq_cons, hunder _ hle, hlater]
  rfl

/-- What holds of the tree of a chain if it holds of the trees under it holds of all trees. -/
theorem forall_trees {P : Token E → Prop} (h : Placed first cs) {ts : List (Token E)}
    (ht : Trees first cs ts)
    (hp : ∀ c ∈ cs, ∀ nested, (∀ t ∈ nested, P t) → P (nest nested c.line c.followers)) :
    ∀ t ∈ ts, P t := by
  induction cs generalizing first ts with
  | nil =>
    rw [show ts = [] from ht]
    exact List.forall_mem_nil _
  | cons c cs ih =>
    obtain ⟨hc, -, hrest⟩ := h
    rw [List.forall_mem_cons] at hp
    cases ts with
    | nil => contradiction
    | cons t ts =>
      obtain ⟨rfl, hts⟩ := (trees_cons hc).1 ht
      have hall := ih hrest hts hp.2
      exact List.forall_mem_cons.2 ⟨hp.1 _ fun u hu ↦ hall u (mem_of_mem_under hu), hall⟩

/-- Folding chains makes their trees, and puts those that lie under a line before them all in front
of the lines under it. -/
theorem exists_trees (h : Placed first cs) {nested : Array (List (Token E))}
    (hsize : first + (entries first cs).length ≤ nested.size)
    (hempty : ∀ q, first ≤ q → nested.getD q [] = []) :
    ∃ ts, Trees first cs ts ∧ ∀ q < first,
      (((entries first cs).zipIdx first).foldr put nested).getD q [] =
        under q (cs.map parent) ts ++ nested.getD q [] := by
  induction cs generalizing first with
  | nil => exact ⟨[], rfl, fun q _ ↦ rfl⟩
  | cons c cs ih =>
    obtain ⟨hc, hcs, hrest⟩ := h
    have hle := c.le_last first
    have hnext : first + (c.followers.length + 1) = c.last first + 1 := rfl
    rw [entries, List.length_append, length_chainEntries, ← Nat.add_assoc, hnext] at hsize
    obtain ⟨ts, hts, hget⟩ := ih hrest hsize fun q hq ↦ hempty q (by omega)
    refine ⟨nest (under (c.last first) (cs.map parent) ts) c.line c.followers :: ts,
      (trees_cons hc).2 ⟨rfl, hts⟩, ?_⟩
    intro q hq
    rw [entries, List.zipIdx_append, List.foldr_append, length_chainEntries, hnext,
      foldr_chainEntries c.line c.followers hc, List.map_cons, under_cons, List.append_assoc]
    · have hlast := hget (c.last first) (Nat.lt_succ_self _)
      rw [hempty _ hle, List.append_nil] at hlast
      change (if q = c.parent then [nest (Array.getD _ (c.last first) []) c.line c.followers]
        else []) ++ _ = _
      rw [hlast, hget q (by omega)]
    · rw [size_foldr_put]
      change c.last first < nested.size
      omega
    · intro r hr hlast
      change r < c.last first at hlast
      rw [hget r (by omega), hempty r hr, under_eq_nil, List.append_nil]
      rintro hmem
      obtain ⟨d, hd, rfl⟩ := List.mem_map.1 hmem
      rcases hcs d hd with hlt | hlt <;> omega
    · exact hq

end Chain

section Finish

variable {o : Outline E} {cs : List (Chain E)} {line : Token E}

/-- The tree of an outline made of chains has the trees of the chains that lie under no other. -/
theorem finish_of_chains (h : Chain.Placed 1 cs) (he : o.entries.toList = Chain.entries 1 cs) :
    ∃ ts, Chain.Trees 1 cs ts ∧ o.finish.children = under 0 (cs.map Chain.parent) ts := by
  have hsize : o.entries.size = (Chain.entries 1 cs).length := by
    rw [← he, Array.length_toList]
  have hlength : 1 + (Chain.entries 1 cs).length ≤
      (Array.replicate (o.entries.size + 1) ([] : List (Token E))).size := by
    rw [Array.size_replicate, hsize]
    exact Nat.le_of_eq (Nat.add_comm ..)
  have hempty : ∀ q, (Array.replicate (o.entries.size + 1) ([] : List (Token E))).getD q [] = [] := by
    intro q
    rw [Array.getD_eq_getD_getElem?, Array.getElem?_replicate]
    split <;> rfl
  obtain ⟨ts, hts, hget⟩ := Chain.exists_trees h hlength fun q _ ↦ hempty q
  refine ⟨ts, hts, ?_⟩
  have htake : o.entries.toList.take o.entries.size = o.entries.toList :=
    List.take_of_length_le (by simp)
  rw [finish]
  dsimp only
  rw [fold_eq_foldr _ _ _ (Nat.le_refl _), htake, he, hget 0 Nat.one_pos, hempty, List.append_nil]

end Finish

section Follow

variable {o o' : Outline E} {owner id level : Nat} {line : Token E}

/-- Adds lines that follow `owner` one after the other on the same line of the template. -/
def follow (o : Outline E) (owner : LineId) : List (Token E) → Outline E × LineId
  | [] => (o, owner)
  | next :: lines => follow (o.expand owner next).1 (o.expand owner next).2 lines

/-- The line that another one follows is the last but one. -/
theorem toList_attachToPayload {entries : Array (Entry E)} {before : List (Entry E)} {e f : Entry E}
    (h : entries.toList = before ++ [e, f]) : (attachToPayload entries (before.length + 1)).toList =
      before ++ [{ e with attach := .payload }, f] := by
  have hlt : before.length < (before ++ [e, f]).length := by simp
  rw [attachToPayload, Array.toList_modify, h, List.modify_eq_take_cons_drop hlt]
  simp

/-- The last line of an outline, and one that follows it. -/
theorem toList_expand {before : List (Entry E)} {line : Token E} {parent : Nat}
    (h : o.entries.toList = before ++ [⟨line, parent, .line⟩]) (next : Token E) :
    (o.expand (before.length + 1) next).1.entries.toList =
      before ++ [⟨line, parent, .payload⟩] ++ [⟨next, before.length + 1, .line⟩] := by
  have hpush : (o.entries.push ⟨next, before.length + 1, .line⟩).toList =
      before ++ [⟨line, parent, .line⟩, ⟨next, before.length + 1, .line⟩] := by
    rw [Array.toList_push, h, List.append_assoc]
    rfl
  exact (toList_attachToPayload hpush).trans (by simp)

/-- What lines that follow the last line of an outline, an open one, make of it. -/
theorem follow_eq {before : List (Entry E)} {line : Token E} {parent : Nat}
    (h : o.entries.toList = before ++ [⟨line, parent, .line⟩]) (howner : owner = before.length + 1)
    (hopen : o.openLines.getLast? = some owner) (lines : List (Token E)) :
    (o.follow owner lines).1.entries.toList = before ++ chainEntries parent owner line lines ∧
      (o.follow owner lines).1.openLines = o.openLines.dropLast ++ [owner + lines.length] := by
  induction lines generalizing o owner before line parent with
  | nil =>
    obtain ⟨os, ho⟩ := List.getLast?_eq_some_iff.1 hopen
    refine ⟨h, ?_⟩
    rw [follow, ho, List.dropLast_concat]
    rfl
  | cons next lines ih =>
    subst howner
    have hsize : o.entries.size = before.length + 1 := by
      rw [← Array.length_toList, h]
      simp
    have hlines : (o.expand (before.length + 1) next).1.openLines =
        o.openLines.dropLast ++ [before.length + 1 + 1] := by
      simp only [expand, takeOver, if_pos hopen, add, hsize]
    have hid : (o.expand (before.length + 1) next).2 =
        (before ++ [(⟨line, parent, .payload⟩ : Entry E)]).length + 1 := by
      simp only [expand, add, hsize, List.length_append, List.length_singleton]
    have hlast : (o.expand (before.length + 1) next).1.openLines.getLast? =
        some (o.expand (before.length + 1) next).2 := by
      rw [hlines, List.getLast?_concat, hid, List.length_append, List.length_singleton]
    obtain ⟨hentries, hopens⟩ := ih (toList_expand h next) hid hlast
    refine ⟨?_, ?_⟩
    · rw [follow, hentries, hid, List.append_assoc]
      simp [chainEntries]
    · rw [follow, hopens, hlines, List.dropLast_concat, hid, List.length_append,
        List.length_singleton, List.length_cons, Nat.add_assoc, Nat.add_comm 1]

/-- The last of the lines that follow one another is the last of the outline. -/
theorem snd_follow (howner : owner = o.entries.size) (lines : List (Token E)) :
    (o.follow owner lines).2 = owner + lines.length := by
  induction lines generalizing o owner with
  | nil => rfl
  | cons next lines ih =>
    have hid : (o.expand owner next).2 = (o.expand owner next).1.entries.size := by
      simp [expand, add]
    have howner' : (o.expand owner next).2 = owner + 1 := by
      rw [howner]
      rfl
    rw [follow, ih hid, howner', List.length_cons]
    exact Nat.succ_add_eq_add_succ owner lines.length

@[simp] theorem maxDepth_follow (o : Outline E) (owner : Nat) (lines : List (Token E)) :
    (o.follow owner lines).1.maxDepth = o.maxDepth := by
  induction lines generalizing o owner with
  | nil => rfl
  | cons next lines ih => exact ih _ _

/-- What a line at a level, and lines that follow it, make of an outline. -/
theorem follow_openLine (h : o.openLine level line = .ok (o', id)) (lines : List (Token E)) :
    (o'.follow id lines).1.entries.toList = o.entries.toList ++
        chainEntries (o.parentAt level) (o.entries.size + 1) line lines ∧
      (o'.follow id lines).1.openLines =
        o.openLines.take level ++ [o.entries.size + 1 + lines.length] ∧
      (o'.follow id lines).1.maxDepth = o.maxDepth := by
  obtain ⟨-, rfl, rfl⟩ := openLine_eq_ok h
  have hadd : (o.add (o.parentAt level) line).1.entries.toList =
      o.entries.toList ++ [⟨line, o.parentAt level, .line⟩] :=
    Array.toList_push ..
  have hfollow := follow_eq (o := { (o.add (o.parentAt level) line).1 with
    openLines := o.openLines.take level ++ [o.entries.size + 1] }) hadd
    (by rw [Array.length_toList]) (List.getLast?_concat ..) lines
  rw [List.dropLast_concat] at hfollow
  exact ⟨hfollow.1, hfollow.2, maxDepth_follow ..⟩

end Follow

end Pug.Outline

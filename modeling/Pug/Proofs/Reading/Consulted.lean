import Pug.Expression.Dictated
import Pug.Proofs.Source.Path
import Pug.Reader

/-!
# What an expression parser was asked

The calls of an expression parser are recorded with the rest of the template that each was given.
An accepted answer is *taken* if it takes at least one byte, no more than are left, and only whole
characters. Calls are *consulted* between two offsets if each starts where the calls before it had
taken the template to, or behind, and all their answers were taken; the expressions they stand for
are then read off the calls.
-/

namespace Pug

open Text

namespace ExpressionParser.Call

variable {E : Type}

/-- The handle of an answer that is taken, and the text that it takes. -/
def taken? (call : Call E) : Option (E × List Char) :=
  match call.answer with
  | .accepted handle bytes =>
    let text := firstBytes bytes call.rest
    if bytes = 0 || byteLength text != bytes then none else some (handle, text)
  | _ => none

/-- A text that is taken stands at the front of the rest, and is not empty. -/
theorem taken?_eq_some {call : Call E} {handle : E} {text : List Char}
    (h : call.taken? = some (handle, text)) :
    call.answer = .accepted handle (byteLength text) ∧ 0 < byteLength text ∧
      ∃ others, call.rest = text ++ others := by
  unfold taken? at h
  split at h
  · rename_i n hn
    obtain ⟨others, ho⟩ := firstBytes_prefix n call.rest
    dsimp only at h
    split at h
    · contradiction
    · rename_i hc
      simp only [Bool.or_eq_true, decide_eq_true_eq, bne_iff_ne, ne_eq, not_or, Decidable.not_not] at hc
      simp only [Option.some.injEq, Prod.mk.injEq] at h
      obtain ⟨rfl, rfl⟩ := h
      exact ⟨by rw [hn, hc.2], by omega, others, ho⟩
  · contradiction

/-- An answer that names the length of a text at the front of the rest takes that text. -/
theorem taken?_of_accepted {call : Call E} {handle : E} {text others : List Char}
    (ha : call.answer = .accepted handle (byteLength text)) (hpos : 0 < byteLength text)
    (hr : call.rest = text ++ others) : call.taken? = some (handle, text) := by
  have hf : firstBytes (byteLength text) call.rest = text := by rw [hr, firstBytes_append]
  rw [taken?, ha]
  simp [hf, Nat.ne_of_gt hpos]

/-- What a call asks. -/
def question (call : Call E) : Mode × List Char :=
  (call.mode, call.rest)

/-- The answer accepts what is no text at the front of the rest: no byte at all, more bytes than are
left, or a part of a character. -/
def Void (call : Call E) : Prop :=
  ∃ handle bytes, call.answer = .accepted handle bytes ∧
    (bytes = 0 ∨ ∀ text others, call.rest = text ++ others → byteLength text ≠ bytes)

theorem taken?_of_void {call : Call E} (h : call.Void) : call.taken? = none := by
  obtain ⟨handle, bytes, ha, hv⟩ := h
  cases ht : call.taken? with
  | none => rfl
  | some r =>
    obtain ⟨hacc, hpos, others, ho⟩ := taken?_eq_some (show _ = some (r.1, r.2) from ht)
    rw [ha] at hacc
    cases hacc
    exact (hv.resolve_left (Nat.ne_of_gt hpos) _ _ ho rfl).elim

/-- The offset of a template at which a call starts. -/
def offset (source : List Char) (call : Call E) : Nat :=
  byteLength source - byteLength call.rest

theorem offset_eq {source : List Char} {call : Call E} {c : Cursor} (hc : Place source c)
    (h : call.rest = c.rest) : call.offset source = c.offset := by
  have := hc.offset_add
  rw [offset, h]
  omega

/-- What a call takes is not offered to another one: it starts behind, unless the call takes
nothing. -/
def Before (source : List Char) (k l : Call E) : Prop :=
  ∀ handle text, k.taken? = some (handle, text) →
    k.offset source + byteLength text ≤ l.offset source

end ExpressionParser.Call

open ExpressionParser (Call)

variable {E : Type} {source : List Char} {lo mid hi : Nat} {calls calls' : List (Call E)}
variable {es es' : List (Embedded E)}

/-- An expression stands between the blanks around it. -/
theorem embed_leads {c d : Cursor} {raw : List Char} (h : c.Leads raw d) (handle : E) :
    ∃ m n blanks, c.Leads (raw.takeWhile isBlank) m ∧ m.Leads (trim raw) n ∧ n.Leads blanks d ∧
      (∀ x ∈ blanks, isBlank x = true) ∧
      Reader.embed c raw handle = ⟨handle, String.ofList (trim raw), ⟨m.offset, n.offset⟩⟩ := by
  obtain ⟨blanks, hb, hx⟩ := exists_eq_trim_append raw
  rw [hb] at h
  obtain ⟨hm, h⟩ := h.split
  obtain ⟨hn, h⟩ := h.split
  exact ⟨_, _, blanks, hm, hn, h, hx, by rw [Reader.embed, hn.2]⟩

/-- Calls whose answers were all taken, between two offsets of a template, and the expressions that
they stand for. -/
inductive Consulted (source : List Char) :
    Nat → List (Call E) → List (Embedded E) → Nat → Prop where
  | nil {lo hi : Nat} (h : lo ≤ hi) : Consulted source lo [] [] hi
  | cons {lo hi : Nat} {call : Call E} {calls : List (Call E)} {es : List (Embedded E)}
      {c : Cursor} {handle : E} {text : List Char}
      (place : Place source c) (rest : call.rest = c.rest)
      (taken : call.taken? = some (handle, text)) (start : lo ≤ c.offset)
      (others : Consulted source (c.offset + byteLength text) calls es hi) :
      Consulted source lo (call :: calls) (Reader.embed c text handle :: es) hi

namespace Consulted

theorem le (h : Consulted source lo calls es hi) : lo ≤ hi := by
  induction h with
  | nil h => exact h
  | cons _ _ _ _ _ ih => omega

theorem mono (h : Consulted source lo calls es hi) {hi' : Nat} (hh : hi ≤ hi') :
    Consulted source lo calls es hi' := by
  induction h with
  | nil h => exact .nil (by omega)
  | cons place rest taken start _ ih => exact .cons place rest taken start (ih hh)

theorem of_le {lo' : Nat} (hl : lo' ≤ lo) (h : Consulted source lo calls es hi) :
    Consulted source lo' calls es hi := by
  cases h with
  | nil h => exact .nil (by omega)
  | cons place rest taken start others =>
    exact .cons place rest taken (by omega) others

theorem append (h : Consulted source lo calls es mid) (k : Consulted source mid calls' es' hi) :
    Consulted source lo (calls ++ calls') (es ++ es') hi := by
  induction h with
  | nil h => exact k.of_le h
  | cons place rest taken start _ ih => exact .cons place rest taken start (ih k)

/-- Each call takes a byte at least. -/
theorem length_add_le (h : Consulted source lo calls es hi) : lo + calls.length ≤ hi := by
  induction h with
  | nil h => simpa using h
  | cons _ _ taken _ _ ih =>
    have := (Call.taken?_eq_some taken).2.1
    simp only [List.length_cons]
    omega

theorem le_offset (h : Consulted source lo calls es hi) : ∀ call ∈ calls, lo ≤ call.offset source := by
  induction h with
  | nil => nofun
  | cons place rest _ start _ ih =>
    intro call hcall
    rcases List.mem_cons.1 hcall with rfl | hcall
    · rwa [Call.offset_eq place rest]
    · have := ih call hcall
      omega

theorem stop_le (h : Consulted source lo calls es hi) {call : Call E} (hcall : call ∈ calls)
    {handle : E} {text : List Char} (ht : call.taken? = some (handle, text)) :
    call.offset source + byteLength text ≤ hi := by
  induction h with
  | nil => contradiction
  | cons place rest taken _ others ih =>
    rcases List.mem_cons.1 hcall with rfl | hcall
    · rw [taken] at ht
      cases ht
      rw [Call.offset_eq place rest]
      exact others.le
    · exact ih hcall

theorem pairwise (h : Consulted source lo calls es hi) :
    calls.Pairwise (Call.Before source) := by
  induction h with
  | nil => exact .nil
  | cons place rest taken _ others ih =>
    refine .cons (fun call hcall handle text ht ↦ ?_) ih
    rw [taken] at ht
    cases ht
    rw [Call.offset_eq place rest]
    exact others.le_offset call hcall

/-- The expressions have the handles that were answered, in the order of the calls. -/
theorem handles_eq (h : Consulted source lo calls es hi) :
    es.map (fun e ↦ some e.handle) = calls.map (fun call ↦ call.taken?.map Prod.fst) := by
  induction h with
  | nil => rfl
  | cons _ _ taken _ _ ih =>
    rw [List.map_cons, List.map_cons, ih, taken]
    rfl

/-- Each call is about the rest of the template from some place on. -/
theorem exists_place (h : Consulted source lo calls es hi) {call : Call E} (hcall : call ∈ calls) :
    (∃ c, Place source c ∧ call.rest = c.rest) ∧ call.taken?.isSome = true := by
  induction h with
  | nil => contradiction
  | cons place rest taken _ _ ih =>
    rcases List.mem_cons.1 hcall with rfl | hcall
    · exact ⟨⟨_, place, rest⟩, by rw [taken]; rfl⟩
    · exact ih hcall

/-- Each expression is that of the text which some call took. -/
theorem exists_call (h : Consulted source lo calls es hi) {e : Embedded E} (he : e ∈ es) :
    ∃ call ∈ calls, ∃ c text, Place source c ∧ call.rest = c.rest ∧
      call.taken? = some (e.handle, text) ∧ e = Reader.embed c text e.handle := by
  induction h with
  | nil => contradiction
  | cons place rest taken _ _ ih =>
    rcases List.mem_cons.1 he with rfl | he
    · exact ⟨_, List.mem_cons_self .., _, _, place, rest, taken, rfl⟩
    · obtain ⟨call, hcall, hc⟩ := ih he
      exact ⟨call, List.mem_cons_of_mem _ hcall, hc⟩

end Consulted

/-- A log of calls: all but at most one, the last, were taken, and what they took was not offered
again. -/
structure Logged (source : List Char) (log : List (Call E)) : Prop where
  consulted : ∃ (calls : List (Call E)) (last : Option (Call E)) (es : List (Embedded E)) (hi : Nat),
    log = calls ++ last.toList ∧ Consulted source 0 calls es hi ∧ hi ≤ byteLength source ∧
      ∀ call ∈ last, call.taken? = none ∧
        ∃ c, Place source c ∧ call.rest = c.rest ∧ hi ≤ c.offset

namespace Logged

variable {log : List (Call E)}

theorem of_consulted (h : Consulted source 0 calls es hi) (hh : hi ≤ byteLength source) :
    Logged source calls :=
  ⟨calls, none, es, hi, by simp, h, hh, nofun⟩

theorem exists_place (h : Logged source log) {call : Call E} (hcall : call ∈ log) :
    ∃ c, Place source c ∧ call.rest = c.rest := by
  obtain ⟨calls, last, es, hi, rfl, hc, -, hlast⟩ := h.consulted
  rcases List.mem_append.1 hcall with hcall | hcall
  · exact (hc.exists_place hcall).1
  · obtain ⟨-, c, hp, hr, -⟩ := hlast call (Option.mem_toList.1 hcall)
    exact ⟨c, hp, hr⟩

theorem pairwise (h : Logged source log) : log.Pairwise (Call.Before source) := by
  obtain ⟨calls, last, es, hi, rfl, hc, -, hlast⟩ := h.consulted
  refine List.pairwise_append.2 ⟨hc.pairwise, ?_, ?_⟩
  · cases last <;> simp
  · intro k hk l hl handle text ht
    obtain ⟨-, c, hp, hr, hle⟩ := hlast l (Option.mem_toList.1 hl)
    rw [Call.offset_eq hp hr]
    exact Nat.le_trans (hc.stop_le hk ht) hle

theorem length_le (h : Logged source log) : log.length ≤ byteLength source + 1 := by
  obtain ⟨calls, last, es, hi, rfl, hc, hh, -⟩ := h.consulted
  have := hc.length_add_le
  cases last <;> simp <;> omega

/-- A call that was not taken is the last. -/
theorem eq_nil_of_not_taken (h : Logged source log) {before after : List (Call E)} {call : Call E}
    (hlog : log = before ++ call :: after) (ht : call.taken? = none) : after = [] := by
  obtain ⟨calls, last, es, hi, rfl, hc, -, -⟩ := h.consulted
  have hmem : call ∉ calls := by
    intro hcall
    have := (hc.exists_place hcall).2
    rw [ht] at this
    contradiction
  rcases List.append_eq_append_iff.1 hlog with ⟨between, -, hb⟩ | ⟨between, hb, hl⟩
  · cases last with
    | none => simp at hb
    | some last => cases between <;> simp_all
  · cases between with
    | nil => cases last <;> simp_all
    | cons x between =>
      obtain ⟨rfl, -⟩ := List.cons.inj hl
      simp [hb] at hmem

end Logged

end Pug

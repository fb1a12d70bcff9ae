import Pug.Expression.Loose
import Pug.Proofs.Lockstep.Template
import Pug.Proofs.Reading.Page

/-!
# What reading a template comes to

A run over a template is a reading of it from its start to its end, or it is broken by the template
or by the expression parser. From the readings come three results, for every template, every number
of levels and every expression parser: what tokens and expressions say stands where their spans
are; the spans are in order, and leave out no byte but separators; and the expression parser is
asked about each part of the template once at most, and what it answers is what the tree holds.
-/

namespace Pug

open Text Token Reader
open ExpressionParser (Call recorded)

variable {σ E α : Type} {parser : ExpressionParser σ E} {maxDepth : Nat} {source : List Char}
variable {s : σ} {root : Token E}

/-- The state that a run ends in. -/
def endState : EStateM.Result Failure (ReadState σ) α → ReadState σ
  | .ok _ t => t
  | .error _ t => t

/-- The calls that reading a template makes, in order. -/
def consultations (parser : ExpressionParser σ E) (maxDepth : Nat) (source : List Char) (s : σ) :
    List (Call E) :=
  (endState (readTemplate (recorded parser) maxDepth source (s, []))).calls.reverse

section Record

/-- A record of the calls changes no answer. -/
theorem answers_recorded (parser : ExpressionParser σ E) (source : List Char) :
    (Link.onOne E source fun (p : σ) (q : σ × List (Call E)) ↦ q.1 = p).Answers parser
      (recorded parser) := by
  refine Link.answers_onOne ?_ ?_ ?_
  all_goals
    rintro mode rest _ q rfl
    rw [ExpressionParser.parse_recorded]

variable (parser maxDepth source s)

/-- A record of the calls changes nothing that is read. -/
theorem readTemplate_recorded :
    (Link.onOne E source fun (p : σ) (q : σ × List (Call E)) ↦ q.1 = p).Ends
      (readTemplate parser maxDepth source s)
      (readTemplate (recorded parser) maxDepth source (s, [])) :=
  (answers_recorded parser source).ends rfl maxDepth rfl

theorem lex_recorded :
    lex (recorded parser) maxDepth source (s, []) = lex parser maxDepth source s :=
  (readTemplate_recorded parser maxDepth source s).lex_eq.trans (Link.onOne_outcome _)

end Record

/-- A tree is read from the start of the template to its end. -/
theorem reading_of_lex (h : lex parser maxDepth source s = .ok root) :
    ∃ t : Recorded σ E, consultations parser maxDepth source s = t.calls.reverse ∧
      root = ⟨.root, "", ⟨0, 0⟩, none, root.children⟩ ∧ t.cursor.offset = byteLength source ∧
      Reading source ⟨.start source, none, (s, [])⟩ root.children t := by
  have hread := readTemplate_reads parser maxDepth source s
  rw [← lex_recorded] at h
  unfold lex at h
  unfold consultations
  split at h
  · rename_i root' t hrun
    cases h
    rw [hrun] at hread ⊢
    obtain ⟨hroot, hrest, hr⟩ := hread
    refine ⟨t, rfl, hroot, ?_, hr⟩
    have := (hr.place (.start source)).offset_add
    rwa [hrest, byteLength_nil, Nat.add_zero] at this
  · contradiction

/-- A failure is one of the template or of the expression parser. -/
theorem broken_of_lex {f : Failure} (h : lex parser maxDepth source s = .error f) :
    ∃ t : Recorded σ E, consultations parser maxDepth source s = t.calls.reverse ∧
      Broken source f t := by
  have hread := readTemplate_reads parser maxDepth source s
  rw [← lex_recorded] at h
  unfold lex at h
  unfold consultations
  split at h
  · contradiction
  · rename_i f' t hrun
    cases h
    rw [hrun] at hread ⊢
    exact ⟨t, rfl, hread⟩

/-- The calls are logged however the run ends. -/
theorem logged_consultations (parser : ExpressionParser σ E) (maxDepth : Nat)
    (source : List Char) (s : σ) : Logged source (consultations parser maxDepth source s) := by
  cases h : lex parser maxDepth source s with
  | ok root =>
    obtain ⟨t, hc, -, -, hr⟩ := reading_of_lex h
    obtain ⟨calls, hcalls, hcs⟩ := hr.consulted
    have hlog := Logged.of_consulted hcs (hr.place (.start source)).offset_le
    rw [hc, hcalls]
    simpa [ReadState.calls] using hlog
  | error f =>
    obtain ⟨t, hc, hb⟩ := broken_of_lex h
    rw [hc]
    exact hb.logged

/-- The expressions of a tree are those of the calls. -/
theorem consulted_of_lex (h : lex parser maxDepth source s = .ok root) :
    Consulted source 0 (consultations parser maxDepth source s) root.embedded
      (byteLength source) := by
  obtain ⟨t, hc, hroot, hend, hr⟩ := reading_of_lex h
  obtain ⟨calls, hcalls, hcs⟩ := hr.consulted
  rw [hc, hcalls, hroot, embedded_eq, ← hend]
  simpa [ReadState.calls, Cursor.start] using hcs

section Spans

theorem place_endState (parser : ExpressionParser σ E) (maxDepth : Nat) (source : List Char)
    (s : σ) : Place source (endState (readTemplate parser maxDepth source s)).cursor := by
  have hend := readTemplate_recorded parser maxDepth source s
  have hread := readTemplate_reads parser maxDepth source s
  generalize readTemplate parser maxDepth source s = r₁ at hend ⊢
  generalize readTemplate (recorded parser) maxDepth source (s, []) = r₂ at hend hread
  cases hend with
  | ok ht =>
    have := hread.2.2.place (.start source)
    rwa [Link.onOne_eq ht.places] at this
  | error ht =>
    have := Broken.place hread
    rwa [Link.onOne_eq ht.places] at this

theorem stands_of_lex (h : lex parser maxDepth source s = .ok root) :
    ∀ u ∈ root.preorder, Stands source u.text u.span := by
  obtain ⟨t, -, hroot, -, hr⟩ := reading_of_lex h
  intro u hu
  rw [preorder_eq, List.mem_cons] at hu
  rcases hu with rfl | hu
  · rw [hroot]
    exact ⟨[], source, by simp, rfl⟩
  · exact hr.stands u hu

/-- Reading stays inside the template, whatever the expression parser answers: the cursor ends at a
place of the template, nothing is asked for that the template does not have, and tokens and
expressions say what stands where their spans are. -/
theorem lex_stands (parser : ExpressionParser σ E) (maxDepth : Nat) (source : List Char) (s : σ) :
    Place source (endState (readTemplate parser maxDepth source s)).cursor ∧
      match lex parser maxDepth source s with
      | .ok root =>
        (∀ u ∈ root.preorder, Stands source u.text u.span) ∧
          ∀ e ∈ root.embedded, Stands source e.text e.span ∧ trim e.text.toList = e.text.toList ∧
            ∃ call ∈ consultations parser maxDepth source s, ∃ bytes,
              call.answer = .accepted e.handle bytes ∧ call.offset source ≤ e.span.start ∧
                e.span.stop ≤ call.offset source + bytes
      | .error f =>
        f ≠ .outOfRange ∧ f ≠ .stalled ∧
          ((∃ e, f = .error e ∧ ∃ c, Place source c ∧ c.offset = e.offset) ∨
            f = .brokeDown ∧
              ∃ call ∈ (consultations parser maxDepth source s).getLast?,
                call.answer = .brokeDown) := by
  refine ⟨place_endState parser maxDepth source s, ?_⟩
  cases h : lex parser maxDepth source s with
  | ok root =>
    exact ⟨stands_of_lex h, fun e he ↦ (consulted_of_lex h).embedded_stands he⟩
  | error f =>
    obtain ⟨t, hc, hb⟩ := broken_of_lex h
    refine ⟨?_, ?_, ?_⟩
    · rcases hb.cause with ⟨e, rfl, -⟩ | ⟨rfl, -⟩ <;> nofun
    · rcases hb.cause with ⟨e, rfl, -⟩ | ⟨rfl, -⟩ <;> nofun
    · rw [hc, List.getLast?_reverse]
      exact hb.cause

theorem ordered_of_lex (h : lex parser maxDepth source s = .ok root) :
    Ordered 0 root.leafSpans (byteLength source) := by
  obtain ⟨t, -, hroot, hend, hr⟩ := reading_of_lex h
  have ho := hr.ordered
  rw [hend] at ho
  rw [hroot]
  simpa [leafSpans_eq, apart?, Kind.isContainer, Cursor.start] using ho

theorem accounted_of_lex (h : lex parser maxDepth source s = .ok root) :
    Accounted source 0 (root.preorder.flatMap covers) (byteLength source) := by
  obtain ⟨t, -, -, hend, hr⟩ := reading_of_lex h
  have ha := hr.accounted
  rw [hend] at ha
  rw [preorder_eq]
  exact ha.mono fun s hs ↦ List.mem_flatMap.2 <| by
    obtain ⟨u, hu, hs⟩ := List.mem_flatMap.1 hs
    exact ⟨u, List.mem_cons_of_mem _ hu, hs⟩

/-- Nothing of a template is lost, said twice or out of order: the leaf spans of its tree follow one
another, and every byte outside the tokens and the expressions is a separator. -/
theorem lex_covers (h : lex parser maxDepth source s = .ok root) :
    root.leafSpans.Pairwise (fun a b ↦ a.stop ≤ b.start) ∧
      (∀ a ∈ root.leafSpans, a.start ≤ a.stop) ∧
      ∀ i < byteLength source,
        (∃ u ∈ root.preorder, ∃ a ∈ u.covers, a.start ≤ i ∧ i < a.stop) ∨ Separates source i := by
  have ho := ordered_of_lex h
  refine ⟨ho.pairwise, ho.start_le_stop, fun i hi ↦ ?_⟩
  refine (accounted_of_lex h i (Nat.zero_le i) hi).imp_left ?_
  rintro ⟨a, ha, hspan⟩
  obtain ⟨u, hu, ha⟩ := List.mem_flatMap.1 ha
  exact ⟨u, hu, a, ha, hspan⟩

/-- The expression of a loop stands behind its variable, though the token of the loop holds both. -/
theorem lex_covers_loop :
    ∃ root, lex .loose 32 "each x in xs\n  li= x".toList () = .ok root ∧
      root.leafSpans = [⟨0, 4⟩, ⟨5, 6⟩, ⟨10, 12⟩, ⟨15, 17⟩, ⟨17, 20⟩] ∧
      root.leafSpans.Pairwise (fun a b ↦ a.stop ≤ b.start) := by
  have h : ∃ root, lex .loose 32 "each x in xs\n  li= x".toList () = .ok root ∧
      root.leafSpans = [⟨0, 4⟩, ⟨5, 6⟩, ⟨10, 12⟩, ⟨15, 17⟩, ⟨17, 20⟩] := ⟨_, by cbv, by cbv⟩
  obtain ⟨root, h, hspans⟩ := h
  exact ⟨root, h, hspans, (lex_covers h).1⟩

end Spans

section Protocol

/-- The second expression parser answers as the first, but may decline where the answer of the first
is void. -/
structure Declines (parser other : ExpressionParser σ E) : Prop where
  state : ∀ mode rest p, (other.parse mode rest p).2 = (parser.parse mode rest p).2
  answer : ∀ mode rest p, (other.parse mode rest p).1 = (parser.parse mode rest p).1 ∨
    (other.parse mode rest p).1 = .declined ∧
      Call.Void ⟨mode, rest, (parser.parse mode rest p).1⟩
  shape : other.shape = parser.shape

namespace Declines

variable {other : ExpressionParser σ E}

/-- Of void answers and none, a record notes the same questions. -/
theorem answers (h : Declines parser other) (source : List Char) :
    (Link.onOne E source fun (p q : σ × List (Call E)) ↦
      q.1 = p.1 ∧ q.2.map Call.question = p.2.map Call.question).Answers
        (recorded parser) (recorded other) := by
  refine Link.answers_onOne ?_ ?_ ?_
  all_goals
    rintro mode rest p q ⟨hstate, hquestions⟩
    rw [ExpressionParser.parse_recorded, ExpressionParser.parse_recorded, hstate]
  · refine ⟨h.state mode rest p.1, ?_⟩
    rw [List.map_cons, List.map_cons, hquestions]
    rfl
  · rcases h.answer mode rest p.1 with heq | ⟨hdec, hvoid⟩
    · rw [heq]
    · rw [hdec, Call.taken?_of_void hvoid]
      rfl
  · rcases h.answer mode rest p.1 with heq | ⟨hdec, handle, bytes, hacc, -⟩
    · rw [heq]
    · dsimp only at hacc ⊢
      rw [hdec, hacc]
      constructor <;> nofun

/-- The run is the same, and so are the questions asked. -/
theorem sameEnd (h : Declines parser other) (maxDepth : Nat) (source : List Char) (s : σ) :
    lex other maxDepth source s = lex parser maxDepth source s ∧
      (consultations other maxDepth source s).map Call.question =
        (consultations parser maxDepth source s).map Call.question := by
  have hends := (h.answers source).ends h.shape maxDepth (p := (s, [])) (q := (s, [])) ⟨rfl, rfl⟩
  refine ⟨?_, ?_⟩
  · rw [← lex_recorded, ← lex_recorded parser]
    exact hends.lex_eq.trans (Link.onOne_outcome _)
  · unfold consultations
    generalize readTemplate (recorded parser) maxDepth source (s, []) = r₁ at hends ⊢
    generalize readTemplate (recorded other) maxDepth source (s, []) = r₂ at hends ⊢
    rw [List.map_reverse, List.map_reverse]
    cases hends with
    | ok ht => exact congrArg List.reverse ht.parsers.2
    | error ht => exact congrArg List.reverse ht.parsers.2

end Declines

/-- A void answer ends the run with an error of the template. -/
theorem error_of_void {call : Call E} (hcall : call ∈ consultations parser maxDepth source s)
    (hv : call.Void) : ∃ e, lex parser maxDepth source s = .error (.error e) := by
  have ht := Call.taken?_of_void hv
  cases h : lex parser maxDepth source s with
  | ok root =>
    have := ((consulted_of_lex h).exists_place hcall).2
    rw [ht] at this
    contradiction
  | error f =>
    obtain ⟨t, hc, hb⟩ := broken_of_lex h
    rcases hb.cause with ⟨e, rfl, -⟩ | ⟨rfl, last, hlast, hbroke⟩
    · exact ⟨e, rfl⟩
    · -- The call that broke down is the last one, as the void one is.
      obtain ⟨before, after, heq⟩ := List.append_of_mem hcall
      have hlog := logged_consultations parser maxDepth source s
      obtain rfl := hlog.eq_nil_of_not_taken heq ht
      rw [← List.getLast?_reverse, ← hc, heq, List.getLast?_concat] at hlast
      cases hlast
      obtain ⟨handle, bytes, hacc, -⟩ := hv
      rw [hbroke] at hacc
      contradiction

/-- The expression parser is asked about the template from some place on, about nothing twice, and
at most once for each byte and once more. A void answer counts as none, and nothing is asked behind
it. The expressions of a tree are those answered, in the order of the calls. -/
theorem lex_consults (parser : ExpressionParser σ E) (maxDepth : Nat) (source : List Char) (s : σ) :
    (∀ call ∈ consultations parser maxDepth source s, ∃ c, Place source c ∧ call.rest = c.rest) ∧
      (consultations parser maxDepth source s).Pairwise (Call.Before source) ∧
      (consultations parser maxDepth source s).length ≤ byteLength source + 1 ∧
      (∀ before call after, consultations parser maxDepth source s = before ++ call :: after →
        call.Void → after = [] ∧ ∃ e, lex parser maxDepth source s = .error (.error e)) ∧
      (∀ other, Declines parser other →
        lex other maxDepth source s = lex parser maxDepth source s ∧
          (consultations other maxDepth source s).map Call.question =
            (consultations parser maxDepth source s).map Call.question) ∧
      ∀ root, lex parser maxDepth source s = .ok root →
        root.embedded.map (fun e ↦ some e.handle) =
          (consultations parser maxDepth source s).map fun call ↦ call.taken?.map Prod.fst := by
  have hlog := logged_consultations parser maxDepth source s
  refine ⟨fun call ↦ hlog.exists_place, hlog.pairwise, hlog.length_le, ?_, ?_, ?_⟩
  · intro before call after heq hv
    refine ⟨hlog.eq_nil_of_not_taken heq (Call.taken?_of_void hv), error_of_void ?_ hv⟩
    rw [heq]
    simp
  · intro other h
    exact h.sameEnd maxDepth source s
  · intro root h
    exact (consulted_of_lex h).handles_eq

end Protocol

end Pug

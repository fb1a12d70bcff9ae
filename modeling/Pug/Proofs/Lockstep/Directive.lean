import Pug.Proofs.Lockstep.Tag
import Pug.Proofs.Reading.Directive

/-!
# Directives in lockstep

A directive reads its word, and what its word asks for, in one line; the only expression that is
looked into is the definition of a mixin. Where the second run rejects a definition that the first
accepts, the tree of the first run holds that definition.
-/

namespace Pug.Link

open Text Token Reader Directive

variable {σ₁ σ₂ E₁ E₂ : Type} {L : Link σ₁ σ₂ E₁ E₂} {g₁ : Setup σ₁ E₁} {g₂ : Setup σ₂ E₂}
variable {c d : Cursor} {lost : Token E₁ × LineTail → ReadState σ₁ → Prop}

theorem tail_rel : L.Rel Eq tail tail := by
  refine skipSpacing_rel.bind fun _ _ _ ↦ (eat_rel (by decide)).bind ?_
  rintro eaten _ rfl
  refine .ite Iff.rfl (fun _ ↦ .pure rfl) fun _ ↦ ?_
  exact (endRun_rel false).bind fun _ _ _ ↦ .pure rfl

/-- A token and what may follow a directive. -/
theorem withTail_rel {a : Token E₁} {b : Token E₂} (h : L.Tokens a b) :
    L.RelUnless lost L.Lines (do return (a, ← tail)) (do return (b, ← tail)) := by
  refine tail_rel.bind ?_
  rintro tail _ rfl
  exact .pure ⟨h, rfl⟩

theorem argument_rel : L.Rel L.Names argument argument := by
  refine skipSpacing_rel.bind fun _ _ _ ↦ here_rel.bind fun c d h ↦ ?_
  obtain ⟨blanks, ht, -⟩ := exists_eq_trimEnd_append c.line
  have hline := c.leads_lineEnd.1
  rw [ht, List.append_assoc] at hline
  refine skipLine_rel.bind fun _ _ _ ↦ .pure ⟨h, ?_, ⟨_, hline⟩, fun x hx ↦ ?_⟩
  · rw [h.line_eq]
  · refine unbroken_firstLine c.rest x ?_
    change x ∈ c.line
    rw [ht]
    exact List.mem_append_left _ hx

theorem condition_rel (hg : L.Setups g₁ g₂) {a : Token E₁} {b : Token E₂} (h : L.Tokens a b) :
    L.RelUnless lost L.Lines (condition g₁ a) (condition g₂ b) :=
  (hg.inline_rel _).bind fun _ _ he ↦ withTail_rel (tokens_withExpr h he)

theorem atFront_onLine : OnLine Keyword.atFront? :=
  fun _ hm ↦ Keyword.atFront_append hm

/-- A keyword in front, which both runs pass. -/
theorem Places.keyword (h : L.Places c d) {keyword : Keyword} {word : List Char}
    (hk : Keyword.atFront? c.rest = some (keyword, word)) :
    L.Places (c.past word) (d.past word) := by
  obtain ⟨-, others, ho, -⟩ := Keyword.atFront_eq_some hk
  refine h.past ho (atFront_onLine.unbroken_of_eq (fun cs h ↦ ?_) hk)
  obtain ⟨-, others, ho, -⟩ := Keyword.atFront_eq_some h
  exact ⟨others, ho⟩

theorem otherwise_rel (hg : L.Setups g₁ g₂) (h : L.Places c d) :
    L.RelUnless lost L.Lines (otherwise g₁ c) (otherwise g₂ d) := by
  refine (tokenFrom_rel h _).bind fun a b hab ↦ here_rel.bind fun c' d' h' ↦ ?_
  have hs := h'.skipSpacing
  dsimp only
  rw [hs.ask atFront_onLine]
  split
  · rename_i name hn
    refine (moveTo_rel (hs.keyword hn)).bind fun _ _ _ ↦ (tokenFrom_rel h _).bind fun a b hab ↦ ?_
    exact condition_rel hg hab
  · exact withTail_rel hab

theorem loopVariable_rel : L.Rel L.Tokens loopVariable loopVariable := by
  refine here_rel.bind fun c d h ↦ ?_
  have honLine : OnLine Name.loopVariable := fun _ hm ↦ Name.loopVariable_append hm
  have hw := honLine.unbroken Name.exists_eq_loopVariable_append c.rest
  rw [h.ask honLine]
  refine .ite Iff.rfl (fun _ ↦ failAt_rel h _) fun _ ↦ ?_
  obtain ⟨others, ho⟩ := Name.exists_eq_loopVariable_append c.rest
  refine (moveTo_rel (h.past ho hw)).bind fun _ _ _ ↦ skipSpacing_rel.bind fun _ _ _ ↦ ?_
  exact .pure (h.ofText ho hw _)

theorem loopVariables_rel : L.Rel L.TokenLists loopVariables loopVariables := by
  refine skipSpacing_rel.bind fun _ _ _ ↦ loopVariable_rel.bind fun a b hab ↦ ?_
  refine (eat_rel (by decide)).bind ?_
  rintro eaten _ rfl
  refine .ite Iff.rfl (fun _ ↦ ?_) fun _ ↦ .pure (tokenLists_singleton hab)
  refine skipSpacing_rel.bind fun _ _ _ ↦ loopVariable_rel.bind fun a' b' hab' ↦ .pure ?_
  rw [TokenLists, Recast.tokens_cons, Recast.tokens_cons, Recast.tokens_nil, hab, hab']

theorem each_rel (hg : L.Setups g₁ g₂) (h : L.Places c d) :
    L.RelUnless lost L.Lines (each g₁ c) (each g₂ d) := by
  refine (tokenFrom_rel h _).bind fun a b hab ↦ loopVariables_rel.bind fun as bs hts ↦ ?_
  intro s u hs
  refine RunsUnless.here ?_
  have hin : u.cursor.startsWith "in" = s.cursor.startsWith "in" := hs.places.startsWith (by decide)
  have hnext : s.cursor.startsWith "in" = true →
      (u.cursor.rest.drop 2).head?.any isSpacing = (s.cursor.rest.drop 2).head?.any isSpacing := by
    intro h
    have hp := hs.places.past (Cursor.leads_of_startsWith h).1 (unbroken_of_any (by decide))
    exact hp.ask (q := fun cs ↦ cs.head?.any isSpacing) fun _ hm ↦ any_head?_append hm rfl rfl
  have heq : (u.cursor.startsWith "in" && (u.cursor.rest.drop 2).head?.any isSpacing) =
      (s.cursor.startsWith "in" && (s.cursor.rest.drop 2).head?.any isSpacing) := by
    rw [hin]
    cases h : s.cursor.startsWith "in" with
    | false => rfl
    | true => rw [hnext h]
  by_cases hc : (s.cursor.startsWith "in" && (s.cursor.rest.drop 2).head?.any isSpacing) = true
  · rw [if_pos hc, if_pos (heq.trans hc)]
    have hword := Cursor.leads_of_startsWith (Bool.and_eq_true_iff.1 hc).1
    refine (bump_runsTo hs hword.1 (unbroken_of_any (by decide)) (by decide)).bind
      fun _ t _ v ⟨ht, _⟩ ↦ ?_
    refine (hg.inline_rel _).bind (fun e f he ↦ ?_) t v ht
    refine withTail_rel (tokens_withChildren (tokens_withExpr ?_ he) hts)
    rw [Tokens, hab, hts, Recast.length_tokens, Recast.token_eq, Recast.token_eq]
  · rw [if_neg hc, if_neg (mt heq.symm.trans hc)]
    exact failAt_rel hs.places _ s u hs

/-- The tree holds the definition of a mixin that only the second run rejects. -/
def Barred (L : Link σ₁ σ₂ E₁ E₂) (t : Token E₁) : Prop :=
  ∃ a ∈ t.preorder, a.kind = .mixinDefinition ∧ ∃ e ∈ a.expr, L.Rejected e

theorem mixinName_write (ending : LineEnding) (cs : List Char) :
    mixinName (ending.write cs) = ending.write (mixinName cs) := by
  rw [mixinName, mixinName, LineEnding.takeWhile_write rfl rfl, LineEnding.trimEnd_write]

theorem exists_eq_mixinName_append (cs : List Char) : ∃ others, cs = mixinName cs ++ others := by
  obtain ⟨blanks, hb, -⟩ := exists_eq_trimEnd_append (cs.takeWhile (· != '('))
  refine ⟨blanks ++ cs.dropWhile (· != '('), ?_⟩
  rw [mixinName, ← List.append_assoc, ← hb, List.takeWhile_append_dropWhile]

theorem mixin_rel (hg : L.Setups g₁ g₂) :
    L.RelUnless (fun r _ ↦ L.Barred r.1) L.Lines (mixin g₁) (mixin g₂) := by
  refine (hg.inline_rel _).bind ?_
  rintro e f ⟨hf, c, d, hw, hc⟩
  subst hf
  intro s u hs
  dsimp only
  by_cases hshape : g₁.parser.shape e.handle = .other
  · -- The error stands where the expression does.
    rw [if_pos hshape]
    rcases hg.rejects e hshape with hshape' | hx
    · rw [if_pos (show g₂.parser.shape (L.embedded e).handle = .other from hshape')]
      refine .inr ⟨u, rfl, fun _ ↦ hs, ?_⟩
      rintro _ ⟨⟩
      exact ⟨c, d, hw.places, hc⟩
    · exact .inl (hx _)
  · rw [if_neg hshape]
    by_cases hshape' : g₂.parser.shape (L.embedded e).handle = .other
    · have hrejected := (hg.accepts e hshape').resolve_left hshape
      have hL : L.Lenient := L.excused_of_rejected e hrejected
      refine .of_lost (hL.ensures fun r t hr ↦ ?_)
      obtain ⟨tail, v, -, hr⟩ := bind_eq_ok.1 hr
      cases hr
      exact ⟨_, mem_preorder_self _, rfl, e, rfl, hrejected⟩
    · rw [if_neg hshape']
      refine withTail_rel (tokens_withExpr ?_ ⟨rfl, c, d, hw, hc⟩) s u hs
      obtain ⟨others, ho⟩ := exists_eq_mixinName_append e.text.toList
      rw [ho] at hw
      have hspan := hw.left.span_eq
      rw [hc] at hspan
      have hstart : L.offset e.span.start = d.offset := by rw [← hc, hw.places.offset_eq]
      rw [Tokens, Recast.token_leaf, hspan, Recast.text_ofList, Recast.text_embedded,
        Recast.toList_text, mixinName_write, Recast.span_embedded, Recast.start_span, hstart]

theorem directive_rel (hg : L.Setups g₁ g₂) (keyword : Keyword) (h : L.Places c d) :
    L.RelUnless (fun r _ ↦ L.Barred r.1) L.Lines (Directive.line g₁ keyword c)
      (Directive.line g₂ keyword d) := by
  cases keyword with
  | condition kind => exact (tokenFrom_rel h kind).bind fun _ _ hab ↦ condition_rel hg hab
  | otherwise => exact otherwise_rel hg h
  | default => exact (tokenFrom_rel h _).bind fun _ _ hab ↦ withTail_rel hab
  | each => exact each_rel hg h
  | mixin => exact mixin_rel hg
  | inclusion =>
    refine argument_rel.bind fun found found' hf ↦ ?_
    refine .ite (by rw [hf.2.1]) (fun _ ↦ failAt_rel hf.1 _) fun _ ↦ .pure ⟨hf.ofText _, rfl⟩
  | doctype => exact argument_rel.bind fun found found' hf ↦ .pure ⟨hf.ofText _, rfl⟩

end Pug.Link

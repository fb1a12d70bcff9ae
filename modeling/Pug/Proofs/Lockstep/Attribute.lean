import Pug.Grammar.Attribute
import Pug.Proofs.Lockstep.Basic

/-!
# Attributes in lockstep

A list of attributes may go on over line breaks. So where the first template ends, the second may
have more of the list to read, and the runs part; but then the first run finds no end of the list.
-/

namespace Pug.Link

open Text Token Reader
open Attribute hiding endsName_append

variable {σ₁ σ₂ E₁ E₂ : Type} {L : Link σ₁ σ₂ E₁ E₂} {g₁ : Setup σ₁ E₁} {g₂ : Setup σ₂ E₂}
variable {s : ReadState σ₁} {u : ReadState σ₂}

/-- A text without line breaks that both runs have read, at corresponding places. -/
def Names (L : Link σ₁ σ₂ E₁ E₂) (found found' : Cursor × List Char) : Prop :=
  L.Places found.1 found'.1 ∧ found'.2 = found.2 ∧
    (∃ rest, found.1.rest = found.2 ++ rest) ∧ ∀ x ∈ found.2, isBreak x = false

theorem Names.ofText {found found' : Cursor × List Char} (h : L.Names found found') (kind : Kind) :
    L.Tokens (Token.ofText kind found.1 found.2) (Token.ofText kind found'.1 found'.2) := by
  obtain ⟨hp, htext, ⟨rest, hr⟩, hw⟩ := h
  rw [htext]
  exact hp.ofText hr hw kind

theorem quotedName_runsTo {quote : Char} (hq : isBreak quote = false) (hone : byteLength [quote] = 1)
    (hs : L.States s u) {rest : List Char} (hr : s.cursor.rest = quote :: rest) :
    L.RunsTo (quotedName quote) s (quotedName quote) u
      fun a t b v ↦ L.Names a b ∧ L.States t v := by
  have hquote : ∀ x ∈ [quote], isBreak x = false := by simpa using hq
  refine RunsUnless.here ((bump_runsTo (w := [quote]) hs hr hquote hone).bind
    fun _ t _ v ⟨ht, _⟩ ↦ RunsUnless.here ?_)
  rw [ht.places.ask fun _ hm ↦ Name.quoted_append hm quote]
  split
  · exact failAt_rel hs.places _ t v ht
  · rename_i name hn
    have hw := OnLine.unbroken_of_eq (fun _ hm ↦ Name.quoted_append hm quote)
      (fun _ h ↦ (Name.exists_eq_append_of_quoted h).imp' (quote :: ·) fun _ ↦ id) hn
    obtain ⟨others, ho⟩ := Name.exists_eq_append_of_quoted hn
    refine (moveTo_runsTo ht (ht.places.past ho hw)).bind fun _ t' _ v' ⟨ht', hc⟩ ↦ ?_
    have hr' : t'.cursor.rest = [quote] ++ others := by
      rw [hc]
      exact Cursor.rest_past_append _ _ _ ho
    refine (bump_runsTo ht' hr' hquote hone).bind fun _ t'' _ v'' ⟨ht'', _⟩ ↦ ?_
    exact .inr ⟨_, v'', rfl, ⟨ht.places, rfl, ⟨_, ho⟩, hw⟩, ht''⟩

theorem bareName_rel : L.Rel L.Names bareName bareName := by
  refine here_rel.bind fun c d h ↦ ?_
  rw [h.ask fun _ hm ↦ Name.bare_append hm]
  split
  · exact failAt_rel h _
  · rename_i name hn
    have hw := OnLine.unbroken_of_eq (fun _ hm ↦ Name.bare_append hm)
      (fun _ ↦ Name.exists_eq_append_of_bare) hn
    obtain ⟨others, ho⟩ := Name.exists_eq_append_of_bare hn
    exact (moveTo_rel (h.past ho hw)).bind fun _ _ _ ↦ .pure ⟨h, rfl, ⟨_, ho⟩, hw⟩

theorem anyName_rel : L.Rel L.Names anyName anyName := by
  intro s u hs
  refine RunsUnless.here ?_
  have hd := hs.places.head?_eq_some (show isBreak '"' = false from rfl)
  have hq := hs.places.head?_eq_some (show isBreak '\'' = false from rfl)
  split
  · rename_i hc
    rw [hd.2 hc]
    obtain ⟨rest, hr⟩ := List.head?_eq_some_iff.1 hc
    exact quotedName_runsTo rfl rfl hs hr
  · rename_i hc
    rw [hq.2 hc]
    obtain ⟨rest, hr⟩ := List.head?_eq_some_iff.1 hc
    exact quotedName_runsTo rfl rfl hs hr
  · rename_i hnd hns
    split
    · rename_i hc
      exact (hnd (hd.1 hc)).elim
    · rename_i hc
      exact (hns (hq.1 hc)).elim
    · exact bareName_rel s u hs

theorem name_rel : L.Rel L.Names name name := by
  refine here_rel.bind fun c d h ↦ anyName_rel.bind fun found found' hf ↦ ?_
  refine .ite (by rw [hf.2.1]) (fun _ ↦ ?_) fun _ ↦ .pure hf
  exact failAt_rel h _

theorem value_rel (hg : L.Setups g₁ g₂) {found found' : Cursor × List Char}
    (hf : L.Names found found') (kind : Kind) :
    L.Rel L.Tokens
      (do
        let value ← expression g₁ .attributeValue .invalidAttributeValue
        return (Token.ofText kind found.1 found.2).withExpr value)
      (do
        let value ← expression g₂ .attributeValue .invalidAttributeValue
        return (Token.ofText kind found'.1 found'.2).withExpr value) := by
  refine (hg.expression .attributeValue _ (.inr nofun) (.inl rfl)).bind ?_
  rintro e _ ⟨rfl, -⟩
  refine .pure ?_
  rw [Tokens, Recast.token_withExpr, hf.ofText]

theorem entry_rel (hg : L.Setups g₁ g₂) : L.Rel L.Tokens (entry g₁) (entry g₂) := by
  refine name_rel.bind fun found found' hf ↦ here_rel.bind fun c d h ↦ ?_
  refine skipSpacing_rel.bind fun _ _ _ ↦ (eat_rel (by decide)).bind ?_
  rintro eaten _ rfl
  refine .ite Iff.rfl (fun _ ↦ value_rel hg hf _) fun _ ↦ (eat_rel (by decide)).bind ?_
  rintro eaten _ rfl
  refine .ite Iff.rfl (fun _ ↦ value_rel hg hf _) fun _ ↦ (moveTo_rel h).bind fun _ _ _ ↦ ?_
  refine .ite ?_ (fun _ ↦ .pure (hf.ofText _)) fun _ ↦ failAt_rel h _
  rw [h.ask fun _ hm ↦ Attribute.endsName_append hm]

/-- Both templates have ended. -/
def Ended (L : Link σ₁ σ₂ E₁ E₂) (c d : Cursor) : Prop :=
  c = ⟨byteLength L.body + byteLength L.ends₁, []⟩ ∧
    d = ⟨L.offset (byteLength L.body) + byteLength L.ends₂, []⟩

/-- Where both templates end with the body, they have ended at corresponding places. -/
theorem Ended.places {c d : Cursor} (h : L.Ended c d) (hL : L.Alone) : L.Places c d := by
  obtain ⟨rfl, rfl⟩ := h
  refine ⟨L.body, [], (List.append_nil _).symm, ?_, ?_⟩
  · rw [hL.ends₁]
    rfl
  · rw [hL.ends₂]
    rfl

/-- The first template has ended, and so has the second, unless all failures are excused. -/
def AtEnd (L : Link σ₁ σ₂ E₁ E₂) (c d : Cursor) : Prop :=
  L.Ended c d ∨ L.Lenient ∧ c.rest = []

theorem AtEnd.rest {c d : Cursor} (h : L.AtEnd c d) : c.rest = [] := by
  rcases h with ⟨rfl, -⟩ | ⟨-, hr⟩
  · rfl
  · exact hr

/-- Corresponding states of the two runs in a list, which may have come to its end before it is
closed. -/
structure Loose (L : Link σ₁ σ₂ E₁ E₂) (s : ReadState σ₁) (u : ReadState σ₂) : Prop where
  places : L.Places s.cursor u.cursor ∨ L.AtEnd s.cursor u.cursor
  parsers : L.parsers s.parser u.parser
  units : L.units s.unit u.unit

theorem States.loose (h : L.States s u) : L.Loose s u :=
  ⟨.inl h.places, h.parsers, h.units⟩

/-- Where both templates end with the body, the states correspond if some failure is not excused. -/
theorem Loose.states (h : L.Loose s u) (hL : ¬L.Lenient) (ha : L.Alone) : L.States s u := by
  refine ⟨h.places.elim id fun hend ↦ ?_, h.parsers, h.units⟩
  exact (hend.resolve_right fun hl ↦ hL hl.1).places ha

theorem isSeparator_of_isBreak {x : Char} (h : isBreak x = true) : isSeparator x = true := by
  rw [isSeparator, h, Bool.or_true]

/-- At the end there are no separators. -/
theorem skipSeparators_of_nil {c : Cursor} (h : c.rest = []) : c.skipSeparators = c := by
  rw [Cursor.skipSeparators, Cursor.skipWhile, h]
  exact Cursor.skip_zero c

/-- Where there is nothing but separators, they are passed up to the end. -/
theorem skipSeparators_of_forall {offset : Nat} {sep : List Char}
    (h : ∀ x ∈ sep, isSeparator x = true) :
    (⟨offset, sep⟩ : Cursor).skipSeparators = ⟨offset + byteLength sep, []⟩ :=
  Cursor.skipWhile_eq ⟨(List.append_nil sep).symm, rfl⟩ h nofun

/-- The same separators stand there with another line ending. -/
theorem isSeparator_of_mem_write {e : LineEnding} {sep : List Char}
    (h : ∀ x ∈ sep, isSeparator x = true) : ∀ x ∈ e.write sep, isSeparator x = true := by
  refine List.takeWhile_eq_self_iff.1 ?_
  rw [LineEnding.takeWhile_write rfl rfl, List.takeWhile_eq_self_iff.2 h]

/-- The separators in front are passed in both templates. Where nothing else is left of the body, the
first run passes them up to the end, and so does the second unless its template goes on. -/
theorem Places.skipSeparators {c d : Cursor} (h : L.Places c d) :
    (L.Places c.skipSeparators d.skipSeparators ∧ c.skipSeparators.rest ≠ [] ∧
        d.skipSeparators.rest ≠ []) ∨ L.AtEnd c.skipSeparators d.skipSeparators := by
  obtain ⟨before, after, hbody, rfl, rfl⟩ := h
  obtain ⟨sep, others, rfl, hsep, hnext⟩ : ∃ sep others, after = sep ++ others ∧
      (∀ x ∈ sep, isSeparator x = true) ∧ ∀ x ∈ others.head?, isSeparator x = false :=
    ⟨_, _, List.takeWhile_append_dropWhile.symm, fun _ hx ↦ List.mem_takeWhile_imp hx,
      head_dropWhile isSeparator after⟩
  rw [List.nil_append] at hbody
  have hsep' := isSeparator_of_mem_write (e := L.ending) hsep
  cases others with
  | cons x others =>
    -- What stands behind the separators ends them in both templates.
    have hx : isSeparator x = false := hnext x rfl
    have hn : x ≠ '\n' := by
      rintro rfl
      contradiction
    have hw : L.Words sep ⟨byteLength before, [] ++ (sep ++ x :: others ++ L.ends₁)⟩
        ⟨L.offset (byteLength before),
          L.ending.write [] ++ (L.ending.write (sep ++ x :: others) ++ L.ends₂)⟩ :=
      ⟨before, x :: others, hbody, by simp, by simp⟩
    have hrest := Cursor.rest_past_append ⟨byteLength before, [] ++ (sep ++ x :: others ++ L.ends₁)⟩
      sep (x :: (others ++ L.ends₁)) (by simp)
    have hrest' := Cursor.rest_past_append ⟨L.offset (byteLength before),
      L.ending.write [] ++ (L.ending.write (sep ++ x :: others) ++ L.ends₂)⟩ (L.ending.write sep)
      (x :: (L.ending.write others ++ L.ends₂)) (by simp [LineEnding.write_cons_of_ne hn])
    left
    rw [Cursor.skipSeparators, Cursor.skipSeparators,
      Cursor.skipWhile_eq hw.leads hsep (by rw [hrest]; simpa using hx),
      Cursor.skipWhile_eq hw.leads_write hsep' (by rw [hrest']; simpa using hx)]
    exact ⟨hw.past, by rw [hrest]; nofun, by rw [hrest']; nofun⟩
  | nil =>
    -- The line breaks behind the body are separators as well.
    have hall : ∀ x ∈ sep ++ L.ends₁, isSeparator x = true :=
      List.forall_mem_append.2 ⟨hsep, fun x hx ↦ isSeparator_of_isBreak (L.breaks x hx)⟩
    rw [List.append_nil] at hbody ⊢
    right
    rw [List.nil_append, LineEnding.write_nil, List.nil_append, skipSeparators_of_forall hall]
    refine L.breaks_or_lenient.imp (fun hbreaks ↦ ?_) fun hL ↦ ⟨hL, rfl⟩
    have hall' : ∀ x ∈ L.ending.write sep ++ L.ends₂, isSeparator x = true :=
      List.forall_mem_append.2 ⟨hsep', fun x hx ↦ isSeparator_of_isBreak (hbreaks x hx)⟩
    rw [skipSeparators_of_forall hall']
    have hoffset := L.offset_add before sep [] (by rw [hbody, List.append_nil])
    rw [Ended, hbody, byteLength_append, byteLength_append, byteLength_append, hoffset,
      Nat.add_assoc, Nat.add_assoc]
    exact ⟨rfl, rfl⟩

theorem AtEnd.skipSeparators {c d : Cursor} (h : L.AtEnd c d) :
    L.AtEnd c.skipSeparators d.skipSeparators := by
  rw [skipSeparators_of_nil h.rest]
  rcases h with ⟨hc, rfl⟩ | ⟨hL, hr⟩
  · rw [skipSeparators_of_nil rfl]
    exact .inl ⟨hc, rfl⟩
  · exact .inr ⟨hL, hr⟩

theorem skipSeparators_runsTo (h : L.Loose s u) :
    L.RunsTo skipSeparators s skipSeparators u fun _ t _ v ↦
      (L.States t v ∧ t.cursor.rest ≠ [] ∧ v.cursor.rest ≠ []) ∨
        L.AtEnd t.cursor v.cursor ∧ L.Loose t v := by
  refine .inr ⟨(), _, rfl, ?_⟩
  have hend (hend : L.AtEnd s.cursor.skipSeparators u.cursor.skipSeparators) :
      L.Loose { s with cursor := s.cursor.skipSeparators }
        { u with cursor := u.cursor.skipSeparators } := ⟨.inr hend, h.parsers, h.units⟩
  rcases h.places with hp | hp
  · exact hp.skipSeparators.imp (fun ⟨hp, hr⟩ ↦ ⟨⟨hp, h.parsers, h.units⟩, hr⟩) fun hp ↦ ⟨hp, hend hp⟩
  · exact .inr ⟨hp.skipSeparators, hend hp.skipSeparators⟩

/-- Where nothing is left, no word is eaten. -/
theorem eat_of_nil {σ : Type} {s : ReadState σ} (hr : s.cursor.rest = []) {word : String}
    (hne : word.toList ≠ []) : eat word s = .ok false s := by
  have hs : s.cursor.startsWith word = false := by
    rw [Cursor.startsWith, hr]
    cases hx : word.toList with
    | nil => exact absurd hx hne
    | cons x xs => rfl
  change (if s.cursor.startsWith word then _ else _ : Reader σ Bool) s = _
  rw [hs]
  rfl

theorem eat_runsTo (h : L.Loose s u) {word : String} (hw : word.toList.any isBreak = false)
    (hne : word.toList ≠ []) : L.RunsTo (eat word) s (eat word) u fun _ t _ v ↦ L.Loose t v := by
  rcases h.places with hp | hp
  · exact (eat_rel hw).runsTo ⟨hp, h.parsers, h.units⟩ fun _ _ _ _ _ ht ↦ ht.loose
  · unfold RunsTo RunsUnless
    rw [eat_of_nil hp.rest hne]
    right
    by_cases hu : u.cursor.startsWith word = true
    · rcases hp with ⟨-, hd⟩ | ⟨hL, hr⟩
      · have hrun := eat_of_nil (s := u) (by rw [hd]) hne
        exact ⟨false, u, hrun, h⟩
      · refine ⟨true, { u with cursor := u.cursor.past word.toList }, ?_, .inr (.inr ⟨hL, hr⟩),
          h.parsers, h.units⟩
        change (if u.cursor.startsWith word then _ else _ : Reader σ₂ Bool) u = _
        rw [if_pos hu]
        rfl
    · refine ⟨false, u, ?_, h⟩
      change (if u.cursor.startsWith word then _ else _ : Reader σ₂ Bool) u = _
      rw [if_neg hu]
      rfl

theorem item_runsTo (hg : L.Setups g₁ g₂) {start start' : Cursor} (hstart : L.Places start start')
    (hs : L.Loose s u) :
    L.RunsTo (item g₁ start) s (item g₂ start') u (L.Items Eq L.Loose L.States) := by
  refine (skipSeparators_runsTo hs).bind fun _ t _ v ht ↦ RunsUnless.here ?_
  rcases ht with ⟨ht, hne, hne'⟩ | ⟨hend, ht⟩
  · have hclose := ht.places.head?_eq_some (show isBreak ')' = false from rfl)
    split
    · rename_i hnil
      exact absurd hnil hne
    · rename_i rest hr
      obtain ⟨rest', hr'⟩ := List.head?_eq_some_iff.1 (hclose.2 (by rw [hr]; rfl))
      rw [hr']
      refine (bump_runsTo (w := [')']) ht hr (unbroken_of_any rfl) rfl).bind fun _ t _ v ⟨ht, _⟩ ↦ ?_
      exact .inr ⟨_, v, rfl, (Recast.tokens_nil _).symm, rfl, ht⟩
    · rename_i hnil hnot
      split
      · rename_i hnil'
        exact absurd hnil' hne'
      · rename_i rest' hr'
        obtain ⟨rest, hr⟩ := List.head?_eq_some_iff.1 (hclose.1 (by rw [hr']; rfl))
        exact (hnot rest hr).elim
      · refine (entry_rel hg t v ht).bind fun a t b v ⟨hab, ht⟩ ↦ ?_
        refine (skipSeparators_runsTo ht.loose).bind fun _ t _ v ht ↦ ?_
        have ht : L.Loose t v := ht.elim (fun ht ↦ ht.1.loose) And.right
        exact (eat_runsTo ht (by decide) (by decide)).bind fun _ t _ v ht ↦
          .inr ⟨_, v, rfl, hab, ht⟩
  · -- The list is not closed, and the first run fails.
    rw [hend.rest]
    rcases hend with hended | ⟨hL, -⟩
    · rw [show v.cursor.rest = [] by rw [hended.2]]
      exact failAt_runs hstart _ fun hL ↦ ⟨hended.places hL, ht.parsers, ht.units⟩
    · exact .inl (hL _)

theorem list_runsTo (hg : L.Setups g₁ g₂) (hs : L.States s u) {rest : List Char}
    (hr : s.cursor.rest = '(' :: rest) :
    L.RunsTo (list g₁) s (list g₂) u fun a t b v ↦ L.Tokens a b ∧ L.States t v := by
  refine RunsUnless.here ((bump_runsTo (w := ['(']) hs hr (unbroken_of_any rfl) rfl).bind
    fun _ t _ v ⟨ht, _⟩ ↦ ?_)
  refine (gather_runsTo (fun _ _ ↦ item_runsTo hg hs.places) hg.rounds_le hg.rounds_eq
    ?_ ht.loose).bind fun r t r' v ⟨hts, _, ht⟩ ↦ ?_
  · exact (Classical.em L.Lenient).imp_right fun hlenient s u h hL ↦ h.states hlenient hL
  refine (tokenFrom_rel hs.places _).bind (fun a b hab ↦ .pure ?_) t v ht
  rw [Tokens, Recast.token_withChildren, hts, hab]

end Pug.Link

import Pug.Proofs.Print.Tag

/-!
# Literal text, written and read back

In literal text a backslash is written before each opener. Openers may overlap what stands around
them, as in `##` before a brace, but a character behind a backslash that is escaped opens nothing by
itself; so the backslashes that are written are those at which the text is read in pieces, and each
piece is the text from one backslash to the next.
-/

namespace Pug

open Text Token Reader Extent

namespace TextRun

/-- Literal text with a backslash before each opener in it. -/
def escape : List Char → List Char
  | [] => []
  | c :: rest => if opens (c :: rest) then '\\' :: c :: escape rest else c :: escape rest

/-- The text up to its first opener. -/
def beforeOpener : List Char → List Char
  | [] => []
  | c :: rest => if opens (c :: rest) then [] else c :: beforeOpener rest

/-- The character stands in literal text for itself. -/
def isPlain (inside : Bool) (c : Char) : Bool :=
  c != '\\' && !isBreak c && !(inside && c == ']')

/-- What may stand behind literal text: the end of the run or an opener. -/
def FollowsLiteral (inside : Bool) (others : List Char) : Prop :=
  literal inside others = [] ∧ ∀ c ∈ others.head?, c ≠ '\x7b' ∧ c ≠ '['

/-- An opener is told by its two characters. -/
theorem opens_cons (c : Char) (rest : List Char) : opens (c :: rest) = rest.head?.any fun d ↦
    c == '#' && (d == '\x7b' || d == '[') || c == '!' && d == '\x7b' := by
  unfold opens
  split
  · simp_all
  · simp_all
  · simp_all
  · rename_i h₁ h₂ h₃
    cases rest with
    | nil => rfl
    | cons d rest =>
      refine (Bool.eq_false_iff.2 fun h ↦ ?_).symm
      simp only [List.head?_cons, Option.any_some, Bool.or_eq_true, Bool.and_eq_true,
        beq_iff_eq] at h
      rcases h with ⟨rfl, rfl | rfl⟩ | ⟨rfl, rfl⟩
      · exact h₁ _ rfl
      · exact h₂ _ rfl
      · exact h₃ _ rfl

/-- An opener is two characters, of which only the first can be the first of an opener. -/
theorem exists_of_opens {c : Char} {rest : List Char} (h : opens (c :: rest) = true) :
    ∃ d more, rest = d :: more ∧ (c = '#' ∨ c = '!') ∧ (d = '\x7b' ∨ d = '[') := by
  rw [opens_cons] at h
  cases rest with
  | nil => contradiction
  | cons d more =>
    refine ⟨d, more, rfl, ?_⟩
    simp only [List.head?_cons, Option.any_some, Bool.or_eq_true, Bool.and_eq_true, beq_iff_eq] at h
    rcases h with ⟨hc, hd⟩ | ⟨hc, hd⟩
    · exact ⟨.inl hc, hd⟩
    · exact ⟨.inr hc, .inl hd⟩

/-- Literal text is what stands before its first opener, and the rest. -/
theorem exists_eq_beforeOpener_append (text : List Char) :
    ∃ others, text = beforeOpener text ++ others ∧
      escape text = beforeOpener text ++ escape others := by
  induction text with
  | nil => exact ⟨[], rfl, rfl⟩
  | cons c rest ih =>
    rw [beforeOpener, escape]
    split
    · rename_i h
      refine ⟨c :: rest, rfl, ?_⟩
      rw [escape, if_pos h]
      rfl
    · obtain ⟨others, hrest, hescape⟩ := ih
      refine ⟨others, congrArg (c :: ·) hrest, ?_⟩
      rw [hescape]
      rfl

section

variable {inside : Bool} {c : Char} {text rest others : List Char}

theorem isPlain_iff : isPlain inside c = true ↔
    c ≠ '\\' ∧ isBreak c = false ∧ (inside && c == ']') = false := by
  rw [isPlain, Bool.and_eq_true, Bool.and_eq_true, Bool.not_eq_true', Bool.not_eq_true', and_assoc,
    bne_iff_ne]

theorem opens_backslash (rest : List Char) : opens ('\\' :: rest) = false := by
  rw [opens_cons]
  cases rest <;> simp

/-- The text ends before an opener that is escaped. -/
theorem literal_backslash (h : opens rest = true) : literal inside ('\\' :: rest) = [] := by
  unfold literal
  rw [opens_backslash, if_neg (by simp [isBreak]), if_pos (beq_self_eq_true _), if_pos h]

theorem literal_cons (hc : isPlain inside c = true) (h : opens (c :: rest) = false) :
    literal inside (c :: rest) = c :: literal inside rest := by
  obtain ⟨hslash, hbreak, hclose⟩ := isPlain_iff.1 hc
  rw [literal.eq_def]
  dsimp only
  rw [hbreak, hclose, h, if_neg (by decide), if_neg (by simpa using hslash)]

theorem front_backslash (h : opens rest = true) : Front.ofRest inside ('\\' :: rest) =
    .literal 1 (rest.take 2 ++ literal inside (rest.drop 2)) := by
  simp [Front.ofRest, isBreak, h]

theorem front_plain (hc : isPlain inside c = true) (h : opens (c :: rest) = false) :
    Front.ofRest inside (c :: rest) = .literal 0 (literal inside (c :: rest)) := by
  obtain ⟨hslash, hbreak, hclose⟩ := isPlain_iff.1 hc
  have hend : ¬(isBreak c || (inside && c == ']')) = true := by
    rw [hbreak, hclose]
    decide
  refine (if_neg hend).trans ?_
  split
  · contradiction
  · contradiction
  · contradiction
  · rw [if_neg (by simp [hslash])]

/-- An opener stays one when the text is escaped, and no other comes up. -/
theorem opens_escape (h : FollowsLiteral inside others) (c : Char) (rest : List Char) :
    opens (c :: (escape rest ++ others)) = opens (c :: rest) := by
  rw [opens_cons, opens_cons]
  cases rest with
  | nil =>
    cases others with
    | nil => rfl
    | cons x others =>
      obtain ⟨hbrace, hbracket⟩ := h.2 x rfl
      simp [escape, hbrace, hbracket]
  | cons d rest =>
    rw [escape]
    split
    · obtain ⟨-, -, -, rfl | rfl, -⟩ := exists_of_opens ‹opens (d :: rest) = true› <;> simp
    · rfl

/-- Escaped text is read up to the backslash before its first opener. -/
theorem literal_escape (htext : ∀ c ∈ text, isPlain inside c = true)
    (h : FollowsLiteral inside others) :
    literal inside (escape text ++ others) = beforeOpener text := by
  induction text with
  | nil => exact h.1
  | cons c rest ih =>
    obtain ⟨hc, hrest⟩ := List.forall_mem_cons.1 htext
    have hnext := opens_escape h c rest
    rw [escape, beforeOpener]
    split
    · rename_i hopens
      exact literal_backslash (hnext.trans hopens)
    · rename_i hopens
      rw [List.cons_append, literal_cons hc (hnext.trans (Bool.eq_false_iff.2 hopens)), ih hrest]

/-- Text that starts with no opener is a piece up to its first one. -/
theorem front_escape (htext : ∀ c ∈ text, isPlain inside c = true) (hne : text ≠ [])
    (h : FollowsLiteral inside others) (hopens : opens text = false) :
    Front.ofRest inside (escape text ++ others) = .literal 0 (beforeOpener text) := by
  obtain ⟨c, rest, rfl⟩ := List.exists_cons_of_ne_nil hne
  rw [← literal_escape htext h, escape, hopens, if_neg Bool.false_ne_true]
  exact front_plain (htext c (List.mem_cons_self ..)) ((opens_escape h c rest).trans hopens)

/-- Nothing is escaped in text without an opener. -/
theorem escape_eq_self (hopens : ∀ cs, cs <:+ text → opens cs = false) :
    escape text = text ∧ beforeOpener text = text := by
  induction text with
  | nil => exact ⟨rfl, rfl⟩
  | cons c rest ih =>
    obtain ⟨hescape, hbefore⟩ := ih fun cs hcs ↦ hopens cs (hcs.trans (List.suffix_cons c rest))
    rw [escape, beforeOpener, hopens _ (List.suffix_refl _), if_neg Bool.false_ne_true,
      if_neg Bool.false_ne_true, hescape, hbefore]
    exact ⟨rfl, rfl⟩

/-- The first piece of literal text: what is read at once, behind so many backslashes. -/
theorem exists_front_escape (htext : ∀ c ∈ text, isPlain inside c = true) (hne : text ≠ [])
    (h : FollowsLiteral inside others) : ∃ n first later, text = first ++ later ∧ first ≠ [] ∧
      escape text = List.replicate n '\\' ++ (first ++ escape later) ∧
      Front.ofRest inside (escape text ++ others) = .literal n first := by
  obtain ⟨c, rest, rfl⟩ := List.exists_cons_of_ne_nil hne
  have hnext := opens_escape h c rest
  by_cases hopens : opens (c :: rest) = true
  · -- The opener is kept whole, for its second character opens nothing.
    obtain ⟨d, more, rfl, -, hd⟩ := exists_of_opens hopens
    have hno : opens (d :: more) = false := by
      refine Bool.eq_false_iff.2 fun ho ↦ ?_
      obtain ⟨-, -, -, hmark, -⟩ := exists_of_opens ho
      rcases hd with rfl | rfl <;> simp at hmark
    have hwhole : escape (c :: d :: more) = '\\' :: c :: d :: escape more := by
      rw [escape, if_pos hopens, escape, if_neg (by rw [hno]; decide)]
    have hmore := List.forall_mem_cons.1 (List.forall_mem_cons.1 htext).2
    obtain ⟨later, hlater, hescape⟩ := exists_eq_beforeOpener_append more
    refine ⟨1, c :: d :: beforeOpener more, later, congrArg (c :: d :: ·) hlater,
      List.cons_ne_nil _ _, ?_, ?_⟩
    · rw [hwhole, hescape]
      rfl
    · rw [escape, if_neg (by rw [hno]; decide)] at hnext
      rw [hwhole, ← literal_escape hmore.2 h]
      exact front_backslash (hnext.trans hopens)
  · obtain ⟨later, hlater, hescape⟩ := exists_eq_beforeOpener_append (c :: rest)
    refine ⟨0, _, later, hlater, ?_, hescape, ?_⟩
    · rw [beforeOpener, if_neg hopens]
      exact List.cons_ne_nil _ _
    · exact front_escape htext hne h (Bool.eq_false_iff.2 hopens)

end

section Reading

variable {g : Setup Unit Shape} {c d : Cursor} {broken : Failure → Prop} {inside : Bool}
variable {inlineTag : Reader Unit (Token Shape)} {text : List Char}

theorem byteLength_replicate (n : Nat) : byteLength (List.replicate n '\\') = n := by
  induction n with
  | zero => rfl
  | succ n ih =>
    rw [List.replicate_succ, byteLength_cons, ih]
    exact Nat.add_comm 1 n

/-- The end of the run may stand behind literal text. -/
theorem followsLiteral_of_atRunEnd (h : d.atRunEnd inside = true) :
    FollowsLiteral inside d.rest := by
  cases hrest : d.rest with
  | nil =>
    refine ⟨rfl, ?_⟩
    rintro _ ⟨⟩
  | cons x rest =>
    have hend : (isBreak x || (inside && x == ']')) = true := by
      rw [Cursor.atRunEnd, Cursor.atLineEnd, hrest] at h
      simpa using h
    refine ⟨?_, ?_⟩
    · rw [literal.eq_def]
      dsimp only
      rw [hend]
      rfl
    · rintro _ ⟨⟩
      refine ⟨?_, ?_⟩ <;>
      · rintro rfl
        simp [isBreak] at hend

/-- And so may an opener. -/
theorem followsLiteral_of_opens {others : List Char} (h : opens others = true) :
    FollowsLiteral inside others := by
  cases others with
  | nil => contradiction
  | cons x rest =>
    refine ⟨?_, ?_⟩
    · rw [literal.eq_def]
      dsimp only
      rw [h, Bool.or_true]
      rfl
    · obtain ⟨-, -, -, hx, -⟩ := exists_of_opens h
      rintro _ ⟨⟩
      rcases hx with rfl | rfl <;> decide

/-- Literal text is one piece of a run. -/
theorem piece_yields {n : Nat} {first : List Char}
    (hfront : Front.ofRest inside c.rest = .literal n first)
    (h : c.Leads (List.replicate n '\\' ++ first) d) : (piece g inlineTag inside).Yields c
      (fun r y ↦ ∃ t, r = .one t ∧ t.sketch = .leaf .plainText first ∧ y = d) broken := by
  obtain ⟨hescape, hfirst⟩ := h.split
  refine .here ?_
  rw [hfront]
  refine .bump hescape (byteLength_replicate n) (.here (.moveTo ?_))
  exact .pure ⟨_, rfl, sketch_ofText rfl _ _, hfirst.past_eq⟩

/-- Literal text is read in pieces, and then what stands behind it. -/
theorem literal_yields {P : List (Token Shape) × Unit → Cursor → Prop}
    (htext : ∀ x ∈ text, isPlain inside x = true) (h : c.Leads (escape text) d)
    (hd : FollowsLiteral inside d.rest) {n : Nat} (hn : c.rest.length < n)
    (hk : ∀ k, d.rest.length < k → (gather (piece g inlineTag inside) k).Yields d P broken) :
    (gather (piece g inlineTag inside) n).Yields c
      (fun r y ↦ ∃ ts us, ∃ texts : List (List Char), r.1 = ts ++ us ∧ texts.flatten = text ∧
        ts.map sketch = texts.map (.leaf .plainText) ∧ P (us, r.2) y) broken := by
  induction hlength : text.length using Nat.strong_induction_on generalizing text c n with
  | _ length ih =>
  by_cases hne : text = []
  · subst hne
    obtain rfl := h.eq_of_nil
    exact (hk n hn).mono fun r y hp ↦ ⟨[], r.1, [], rfl, rfl, rfl, hp⟩
  · obtain ⟨k, first, later, rfl, hfirst, hescape, hfront⟩ := exists_front_escape htext hne hd
    rw [← h.1] at hfront
    rw [hescape, ← List.append_assoc] at h
    obtain ⟨hpiece, hlater⟩ := h.split
    have hlt : 0 < first.length := List.length_pos_iff.2 hfirst
    refine .gather_one (M := fun t y ↦ t.sketch = .leaf .plainText first ∧
      y = c.past (List.replicate k '\\' ++ first)) (piece_yields hfront hpiece) ?_ hn ?_
    · rintro t _ ⟨-, rfl⟩
      have := hpiece.length_rest
      rw [List.length_append] at this
      omega
    · rintro t _ m ⟨ht, rfl⟩ hm
      have hlen : later.length < length := by
        rw [← hlength, List.length_append]
        omega
      refine (ih _ hlen (fun x hx ↦ htext x (List.mem_append_right _ hx)) hlater hm rfl).mono ?_
      rintro r y ⟨ts, us, texts, hr, rfl, hts, hp⟩
      refine ⟨t :: ts, us, first :: texts, by rw [hr]; rfl, List.flatten_cons, ?_, hp⟩
      rw [List.map_cons, List.map_cons, ht, hts]

/-- Output, as it is written. -/
def outputText (escaped : Bool) (e : Phrase .inline) : List Char :=
  [if escaped then '#' else '!', '\x7b'] ++ (e.text ++ ['\x7d'])

/-- The kind of output. -/
def outputKind (escaped : Bool) : Kind :=
  if escaped then .outputEscaped else .outputUnescaped

theorem isContainer_outputKind (escaped : Bool) : (outputKind escaped).isContainer = false := by
  cases escaped <;> rfl

/-- Output is a piece of a run. -/
theorem piece_yields_output {escaped : Bool} {e : Phrase .inline} (hg : g.Covers c)
    (h : c.Leads (outputText escaped e) d) : (piece g inlineTag inside).Yields c
      (fun r y ↦ ∃ t, r = .one t ∧
        t.sketch = .value (outputKind escaped) (outputText escaped e) e.text ∧ y = d) broken := by
  have hfront : Front.ofRest inside c.rest = .output (outputKind escaped) := by
    rw [h.1]
    cases escaped <;> simp [outputText, Front.ofRest, isBreak, outputKind]
  have hsize : byteLength [if escaped then '#' else '!', '\x7b'] = 2 := by
    cases escaped <;> rfl
  obtain ⟨hopen, hrest⟩ := h.split
  obtain ⟨hexpr, hclose⟩ := hrest.split
  refine .here ?_
  rw [hfront]
  refine .bind (M := fun t y ↦
    t.sketch = .value (outputKind escaped) (outputText escaped e) e.text ∧ y = d)
    (.here (.bump hopen hsize (.bind
      (e.yields (hg.leads hopen) hexpr (.of_closer hclose rfl)) ?_))) ?_
  · rintro value _ ⟨hv, rfl⟩
    refine .eat_true hclose ?_
    rw [if_pos rfl]
    refine .tokenFrom h (.pure ⟨?_, rfl⟩)
    rw [sketch_withExpr, sketch_ofText (isContainer_outputKind escaped), hv]
    rfl
  · rintro t y ⟨ht, rfl⟩
    exact .pure ⟨t, rfl, ht, rfl⟩

/-- An inline tag is a piece of a run. -/
theorem piece_yields_tag {post : Token Shape → Cursor → Prop} {others : List Char}
    (h : c.rest = '#' :: '[' :: others) (ht : inlineTag.Yields c post broken) :
    (piece g inlineTag inside).Yields c (fun r y ↦ ∃ t, r = .one t ∧ post t y) broken := by
  have hfront : Front.ofRest inside c.rest = .inlineTag := by
    rw [h]
    cases inside <;> rfl
  refine .here ?_
  rw [hfront]
  exact ht.bind fun t y hp ↦ .pure ⟨t, rfl, hp⟩

/-- At the end of a run there is no piece. -/
theorem piece_yields_last (h : c.atRunEnd inside = true) : (piece g inlineTag inside).Yields c
    (fun r y ↦ r = .last [] () ∧ y = c) broken := by
  have hfront : Front.ofRest inside c.rest = .finished := by
    cases hrest : c.rest with
    | nil => rfl
    | cons x rest =>
      rw [Cursor.atRunEnd, Cursor.atLineEnd, hrest] at h
      exact if_pos (by simpa using h)
  refine .here ?_
  rw [hfront]
  exact .pure ⟨rfl, rfl⟩

/-- Text without an opener is one piece, up to the end of the run. -/
theorem plainText_yields (hne : text ≠ []) (htext : ∀ x ∈ text, isPlain inside x = true)
    (hopens : ∀ cs, cs <:+ text → opens cs = false) (h : c.Leads text d)
    (hd : d.atRunEnd inside = true) {n : Nat} (hn : c.rest.length < n) :
    (gather (piece g inlineTag inside) n).Yields c
      (fun r y ↦ r.1.map sketch = [.leaf .plainText text] ∧ y = d) broken := by
  obtain ⟨hescape, hbefore⟩ := escape_eq_self hopens
  have hfront := front_escape htext hne (followsLiteral_of_atRunEnd hd)
    (hopens text (List.suffix_refl _))
  rw [hescape, hbefore, ← h.1] at hfront
  have hlength := h.length_rest
  have hpos := List.length_pos_iff.2 hne
  refine .gather_one (M := fun t y ↦ t.sketch = .leaf .plainText text ∧ y = d)
    (piece_yields hfront h) ?_ hn ?_
  · rintro t _ ⟨-, rfl⟩
    omega
  · rintro t _ k ⟨ht, rfl⟩ hk
    refine .gather_last ((piece_yields_last hd).mono ?_) (Nat.zero_lt_of_lt hk)
    rintro _ y ⟨rfl, rfl⟩
    exact ⟨[], (), rfl, by rw [List.map_singleton, ht], rfl⟩

/-- A run of text on a line or in an inline tag. -/
theorem run_yields {w : List Char} {P : List (Token Shape) → Prop} (h : c.Leads w d)
    (hpieces : (gather (piece g inlineTag inside) g.rounds).Yields c
      (fun r y ↦ P r.1 ∧ y = d) broken) :
    (run g inlineTag inside).Yields c (fun t y ↦
      t.sketch = .row .linePlainText (t.children.map sketch) ∧ P t.children ∧ y = d) broken := by
  refine .here (.bind (M := fun ts y ↦ P ts ∧ y = d) (.bind hpieces ?_) ?_)
  · rintro r y hr
    exact .pure hr
  · rintro ts _ ⟨hts, rfl⟩
    refine .tokenFrom h (.pure ⟨?_, hts, rfl⟩)
    rw [sketch_withChildren, sketch_container rfl]
    rfl

/-- The run of the text of a tag: there is none without text. -/
def row (pieces : List Sketch) : List Sketch :=
  if pieces.isEmpty then [] else [.row .linePlainText pieces]

/-- The text of a tag behind a space. On a line it must not be blank. -/
theorem part_yields {interpolated : Bool} {m e : Cursor} {w : List Char}
    {P : List (Token Shape) → Prop} (hspace : c.Leads [' '] m)
    (hblank : (!interpolated && m.atBlankLine) = false) (hw : m.Leads w e)
    (hpieces : (gather (piece g inlineTag interpolated) g.rounds).Yields m
      (fun r y ↦ P r.1 ∧ y = e) broken) :
    (Tag.part g inlineTag interpolated).Yields c (fun r y ↦ ∃ ts us, r = .last ts .plain ∧
      P us ∧ ts.map sketch = row (us.map sketch) ∧ y = e) broken := by
  have hpart : Tag.Part.ofRest interpolated c.rest = .text := by
    rw [hspace.1]
    cases interpolated <;> rfl
  have htext : (Tag.text g inlineTag interpolated).Yields c
      (fun ts y ↦ ∃ us, P us ∧ ts.map sketch = row (us.map sketch) ∧ y = e) broken := by
    refine .bump hspace rfl (.here ?_)
    rw [if_neg (by rw [hblank]; decide)]
    refine .bind (run_yields hw hpieces) ?_
    rintro run y ⟨hrun, hp, rfl⟩
    refine .pure ⟨run.children, hp, ?_, rfl⟩
    rw [row, List.isEmpty_map]
    split
    · rfl
    · rw [List.map_singleton, hrun]
  refine .here ?_
  rw [hpart]
  refine .bind htext ?_
  rintro ts y ⟨us, hts⟩
  exact .pure ⟨ts, us, rfl, hts⟩

end Reading

end TextRun
end Pug

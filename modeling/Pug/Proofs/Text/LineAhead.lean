import Mathlib
import Pug.Expression.Checked
import Pug.Grammar.Line

/-!
# Looking no further than the line

Whatever a reader asks about the text in front of it, it asks about the line it is on: a line break
answers every question as the end of the template does. So what follows the line, be it nothing or
a line break and more lines, makes no difference to what is told, what is named and how far an
expression goes.
-/

namespace Pug

open Text

namespace Text

theorem isBreak_of_isSpacing {c : Char} (h : isSpacing c = true) : isBreak c = false := by
  rw [isSpacing, Bool.or_eq_true, beq_iff_eq, beq_iff_eq] at h
  rcases h with rfl | rfl <;> decide

/-- What may follow a line: nothing, or a line break and anything. -/
def FollowsLine (more : List Char) : Prop :=
  more.head?.all isBreak = true

variable {more : List Char}

theorem FollowsLine.cases (h : FollowsLine more) :
    more = [] ∨ ∃ rest, more = '\n' :: rest ∨ more = '\r' :: rest := by
  cases more with
  | nil => exact .inl rfl
  | cons c rest =>
    have hc : c = '\n' ∨ c = '\r' := by simpa [FollowsLine, isBreak] using h
    rcases hc with rfl | rfl
    · exact .inr ⟨rest, .inl rfl⟩
    · exact .inr ⟨rest, .inr rfl⟩

/-- A question about the next character that a line break answers with no. -/
theorem any_head?_append (h : FollowsLine more) {p : Char → Bool} (hn : p '\n' = false)
    (hr : p '\r' = false) (cs : List Char) : (cs ++ more).head?.any p = cs.head?.any p := by
  cases cs with
  | cons c cs => rfl
  | nil => rcases h.cases with rfl | ⟨rest, rfl | rfl⟩ <;> simp [hn, hr]

/-- A question about the next character that a line break answers with yes. -/
theorem all_head?_append (h : FollowsLine more) {p : Char → Bool} (hn : p '\n' = true)
    (hr : p '\r' = true) (cs : List Char) : (cs ++ more).head?.all p = cs.head?.all p := by
  cases cs with
  | cons c cs => rfl
  | nil => rcases h.cases with rfl | ⟨rest, rfl | rfl⟩ <;> simp [hn, hr]

/-- A character in front that is no line break stands on the line. -/
theorem next_of_append (h : FollowsLine more) {c : Char} (hc : isBreak c = false)
    {cs rest : List Char} (he : cs ++ more = c :: rest) : ∃ rest, cs = c :: rest := by
  cases cs with
  | cons d cs =>
    obtain ⟨rfl, -⟩ := List.cons.inj he
    exact ⟨cs, rfl⟩
  | nil =>
    rw [List.nil_append] at he
    rw [he] at h
    have hb : isBreak c = true := h
    rw [hb] at hc
    contradiction

/-- A row of characters that ends at a line break. -/
theorem takeWhile_append (h : FollowsLine more) {p : Char → Bool} (hn : p '\n' = false)
    (hr : p '\r' = false) (cs : List Char) : (cs ++ more).takeWhile p = cs.takeWhile p := by
  induction cs with
  | nil => rcases h.cases with rfl | ⟨rest, rfl | rfl⟩ <;> simp [hn, hr]
  | cons c cs ih =>
    rw [List.cons_append, List.takeWhile_cons, List.takeWhile_cons, ih]

/-- A word without line breaks. -/
theorem isPrefixOf_append (h : FollowsLine more) {word : List Char}
    (hw : word.any isBreak = false) (cs : List Char) :
    word.isPrefixOf (cs ++ more) = word.isPrefixOf cs := by
  induction word generalizing cs with
  | nil => simp
  | cons x word ih =>
    rw [List.any_cons, Bool.or_eq_false_iff] at hw
    have hx := hw.1
    cases cs with
    | cons c cs => rw [List.cons_append, List.isPrefixOf, List.isPrefixOf, ih hw.2]
    | nil =>
      rcases h.cases with rfl | ⟨rest, rfl | rfl⟩
      · rfl
      · have : (x == '\n') = false := beq_eq_false_iff_ne.2 (by rintro rfl; contradiction)
        simp [List.isPrefixOf, this]
      · have : (x == '\r') = false := beq_eq_false_iff_ne.2 (by rintro rfl; contradiction)
        simp [List.isPrefixOf, this]

/-- Whether a given character is next. -/
theorem head?_append_eq_some (h : FollowsLine more) {c : Char} (hc : isBreak c = false)
    (cs : List Char) : (cs ++ more).head? = some c ↔ cs.head? = some c := by
  constructor
  · intro he
    obtain ⟨rest, hr⟩ := List.head?_eq_some_iff.1 he
    obtain ⟨rest, rfl⟩ := next_of_append h hc hr
    rfl
  · intro he
    obtain ⟨rest, rfl⟩ := List.head?_eq_some_iff.1 he
    rfl

theorem firstLine_append (h : FollowsLine more) (cs : List Char) :
    firstLine (cs ++ more) = firstLine cs :=
  takeWhile_append h rfl rfl cs

theorem exists_eq_firstLine_append (cs : List Char) :
    ∃ more, cs = firstLine cs ++ more ∧ FollowsLine more := by
  refine ⟨cs.dropWhile fun c ↦ !isBreak c, List.takeWhile_append_dropWhile.symm, ?_⟩
  have h := List.head?_dropWhile_not (fun c ↦ !isBreak c) cs
  unfold FollowsLine
  split at h
  · rename_i hx
    rw [hx]
    simpa using h
  · rename_i hx
    rw [hx]
    rfl

/-- A question that the line answers. -/
def OnLine {α : Type} (q : List Char → α) : Prop :=
  ∀ ⦃more⦄, FollowsLine more → ∀ cs, q (cs ++ more) = q cs

/-- Such a question is answered alike where the same line stands in front. -/
theorem OnLine.eq {α : Type} {q : List Char → α} (hq : OnLine q) {cs ds : List Char}
    (h : firstLine cs = firstLine ds) : q cs = q ds := by
  obtain ⟨more, hc, hm⟩ := exists_eq_firstLine_append cs
  obtain ⟨more', hd, hm'⟩ := exists_eq_firstLine_append ds
  calc q cs = q (firstLine cs ++ more) := by rw [← hc]
    _ = q (firstLine cs) := hq hm _
    _ = q (firstLine ds ++ more') := by rw [h, hq hm']
    _ = q ds := by rw [← hd]

theorem unbroken_firstLine (cs : List Char) : ∀ x ∈ firstLine cs, isBreak x = false := by
  intro x hx
  simpa using List.mem_takeWhile_imp hx

/-- What the answer says to stand in front stands there without line breaks. -/
theorem OnLine.exists_front {α : Type} {q : List Char → α} (hq : OnLine q) {a : α}
    {P : List Char → Prop} (hfront : ∀ cs, q cs = a → ∃ w others, cs = w ++ others ∧ P w)
    {cs : List Char} (h : q cs = a) :
    ∃ w others, cs = w ++ others ∧ P w ∧ ∀ x ∈ w, isBreak x = false := by
  obtain ⟨more, hc, hm⟩ := exists_eq_firstLine_append cs
  rw [hc, hq hm] at h
  obtain ⟨w, others, ho, hw⟩ := hfront _ h
  refine ⟨w, others ++ more, ?_, hw, fun x hx ↦ unbroken_firstLine cs x ?_⟩
  · rw [← List.append_assoc, ← ho, ← hc]
  · rw [ho]
    exact List.mem_append_left _ hx

/-- A text that the answer tells to be in front has no line breaks. -/
theorem OnLine.unbroken_of_eq {α : Type} {q : List Char → α} (hq : OnLine q) {a : α} {w : List Char}
    (hfront : ∀ cs, q cs = a → ∃ others, cs = w ++ others) {cs : List Char} (h : q cs = a) :
    ∀ x ∈ w, isBreak x = false := by
  obtain ⟨_, _, -, rfl, hw⟩ := hq.exists_front (P := (· = w))
    (fun ds h ↦ ⟨w, (hfront ds h).choose, (hfront ds h).choose_spec, rfl⟩) h
  exact hw

/-- A text that is always in front has no line breaks. -/
theorem OnLine.unbroken {q : List Char → List Char} (hq : OnLine q)
    (hfront : ∀ cs, ∃ others, cs = q cs ++ others) (cs : List Char) :
    ∀ x ∈ q cs, isBreak x = false := by
  refine hq.unbroken_of_eq (a := q cs) (fun ds h ↦ ?_) rfl
  rw [← h]
  exact hfront ds

end Text

section

variable {more : List Char} (h : FollowsLine more)
include h

namespace Name

theorem startsName_append (cs : List Char) : startsName (cs ++ more) = startsName cs :=
  any_head?_append h rfl rfl cs

theorem tagTail_append (cs : List Char) : tagTail (cs ++ more) = tagTail cs := by
  induction cs with
  | nil => rcases h.cases with rfl | ⟨rest, rfl | rfl⟩ <;> rfl
  | cons c cs ih =>
    rw [List.cons_append, tagTail, tagTail, startsName_append h, ih]

theorem tag_append (cs : List Char) : tag (cs ++ more) = tag cs := by
  rw [tag, tag, startsName_append h, tagTail_append h]

theorem plain_append (cs : List Char) : plain (cs ++ more) = plain cs :=
  takeWhile_append h rfl rfl cs

theorem loopVariable_append (cs : List Char) : loopVariable (cs ++ more) = loopVariable cs := by
  rw [loopVariable, loopVariable, any_head?_append h rfl rfl, takeWhile_append h rfl rfl]

theorem bareTail_append (depth : Nat) (cs : List Char) :
    bareTail depth (cs ++ more) = bareTail depth cs := by
  induction cs generalizing depth with
  | nil => rcases h.cases with rfl | ⟨rest, rfl | rfl⟩ <;> rfl
  | cons c cs ih => rw [List.cons_append, bareTail, bareTail, ih, ih, ih]

theorem bare_append (cs : List Char) : bare? (cs ++ more) = bare? cs := by
  rw [bare?, bare?, bareTail_append h]

theorem quoted_append (quote : Char) (cs : List Char) :
    quoted? quote (cs ++ more) = quoted? quote cs := by
  fun_induction quoted? quote cs with
  | case1 =>
    rcases h.cases with rfl | ⟨rest, rfl | rfl⟩
    · rfl
    · rw [List.nil_append, quoted?.eq_def]
      rfl
    · rw [List.nil_append, quoted?.eq_def]
      rfl
  | case2 c rest hc =>
    rw [List.cons_append, quoted?.eq_def]
    simp [hc]
  | case3 c hc he =>
    rcases h.cases with rfl | ⟨rest, rfl | rfl⟩ <;> simp [quoted?, he, isBreak]
  | case4 c hc he d rest hd => simp [quoted?, hc, he, hd]
  | case5 c hc he d rest hd ih => simp [quoted?, hc, he, hd, ih]
  | case6 c rest hc he hq =>
    rw [List.cons_append, quoted?.eq_def]
    simp [hc, he, hq]
  | case7 c rest hc he hq ih =>
    rw [List.cons_append, quoted?.eq_def]
    simp [hc, he, hq, ih]

end Name

namespace TextRun

theorem opens_append (cs : List Char) : opens (cs ++ more) = opens cs := by
  rcases cs with _ | ⟨c, _ | ⟨d, cs⟩⟩
  · rcases h.cases with rfl | ⟨rest, rfl | rfl⟩ <;> rfl
  · rcases h.cases with rfl | ⟨rest, rfl | rfl⟩
    · rfl
    · simp [opens]
    · simp [opens]
  · unfold opens
    simp only [List.cons_append]
    split <;> split <;> simp_all

theorem literal_append (interpolated : Bool) (cs : List Char) :
    literal interpolated (cs ++ more) = literal interpolated cs := by
  fun_induction literal interpolated cs with
  | case1 =>
    rcases h.cases with rfl | ⟨rest, rfl | rfl⟩
    · rfl
    · rw [List.nil_append, literal.eq_def]
      rfl
    · rw [List.nil_append, literal.eq_def]
      rfl
  | case2 c rest hc =>
    rw [← opens_append h, List.cons_append] at hc
    rw [List.cons_append, literal.eq_def]
    exact if_pos hc
  | case3 c rest hc he ho =>
    rw [← opens_append h, List.cons_append] at hc
    rw [← opens_append h] at ho
    rw [List.cons_append, literal.eq_def]
    dsimp only
    rw [if_neg hc, if_pos he, if_pos ho]
  | case4 c he hc ho =>
    rcases h.cases with rfl | ⟨rest, rfl | rfl⟩
    · rw [List.append_nil, literal.eq_def]
      dsimp only
      rw [if_neg hc, if_pos he, if_neg ho]
    · rw [← opens_append h, List.cons_append] at hc
      rw [← opens_append h] at ho
      rw [List.cons_append, literal.eq_def]
      dsimp only
      rw [if_neg hc, if_pos he, if_neg ho]
      rfl
    · rw [← opens_append h, List.cons_append] at hc
      rw [← opens_append h] at ho
      rw [List.cons_append, literal.eq_def]
      dsimp only
      rw [if_neg hc, if_pos he, if_neg ho]
      rfl
  | case5 c he d rest hd hc ho =>
    rw [← opens_append h, List.cons_append] at hc
    rw [← opens_append h] at ho
    rw [List.cons_append, literal.eq_def]
    dsimp only
    rw [if_neg hc, if_pos he, if_neg ho]
    exact if_pos hd
  | case6 c he d rest hd hc ho ih =>
    rw [← opens_append h, List.cons_append] at hc
    rw [← opens_append h] at ho
    rw [List.cons_append, literal.eq_def]
    dsimp only
    rw [if_neg hc, if_pos he, if_neg ho]
    simp only [List.cons_append, if_neg hd, ih]
  | case7 c rest hc he ih =>
    rw [← opens_append h, List.cons_append] at hc
    rw [List.cons_append, literal.eq_def]
    dsimp only
    rw [if_neg hc, if_neg he, ih]

omit h in
/-- An opener takes two characters. -/
theorem exists_cons_of_opens {cs : List Char} (ho : opens cs = true) :
    ∃ x y rest, cs = x :: y :: rest := by
  unfold opens at ho
  split at ho
  · exact ⟨_, _, _, rfl⟩
  · exact ⟨_, _, _, rfl⟩
  · exact ⟨_, _, _, rfl⟩
  · contradiction

/-- What stands at the front is told from two characters and the literal text. -/
theorem ofRest_append (interpolated : Bool) (cs : List Char) :
    Front.ofRest interpolated (cs ++ more) = Front.ofRest interpolated cs := by
  cases cs with
  | nil => rcases h.cases with rfl | ⟨rest, rfl | rfl⟩ <;> rfl
  | cons c cs =>
    unfold Front.ofRest
    rw [List.cons_append]
    dsimp only
    split
    · rfl
    · split
      · rename_i rest he _
        obtain ⟨rest, rfl⟩ := next_of_append h rfl he
        rfl
      · rename_i rest he _
        obtain ⟨rest, rfl⟩ := next_of_append h rfl he
        rfl
      · rename_i rest he _
        obtain ⟨rest, rfl⟩ := next_of_append h rfl he
        rfl
      · rename_i _ h₁ h₂ h₃
        symm
        split
        · exact (h₁ _ rfl (List.cons_append ..)).elim
        · exact (h₂ _ rfl (List.cons_append ..)).elim
        · exact (h₃ _ rfl (List.cons_append ..)).elim
        · rw [opens_append h, ← List.cons_append, literal_append h]
          split
          · rename_i hesc
            obtain ⟨x, y, tail, rfl⟩ := exists_cons_of_opens (Bool.and_eq_true_iff.1 hesc).2
            simp only [List.cons_append, List.take_succ_cons, List.take_zero, List.drop_succ_cons,
              List.drop_zero, literal_append h]
          · rfl

end TextRun

theorem Tag.ofRest_append (interpolated : Bool) (cs : List Char) :
    Tag.Part.ofRest interpolated (cs ++ more) = Tag.Part.ofRest interpolated cs := by
  cases cs with
  | nil => rcases h.cases with rfl | ⟨rest, rfl | rfl⟩ <;> rfl
  | cons c cs =>
    have hs := isPrefixOf_append h (show Tag.spreadOpener.toList.any isBreak = false by decide)
      (c :: cs)
    have he := head?_append_eq_some h (show isBreak '=' = false from rfl) cs
    rw [List.cons_append] at hs
    unfold Tag.Part.ofRest
    rw [List.cons_append]
    simp only [Name.startsName_append h, hs, he]

theorem Line.ofRest_append (cs : List Char) :
    Line.Form.ofRest (cs ++ more) = Line.Form.ofRest cs := by
  cases cs with
  | nil => rcases h.cases with rfl | ⟨rest, rfl | rfl⟩ <;> rfl
  | cons c cs =>
    have hs := isPrefixOf_append h (show Tag.spreadOpener.toList.any isBreak = false by decide)
      (c :: cs)
    have he := head?_append_eq_some h (show isBreak '=' = false from rfl) cs
    have hl := head?_append_eq_some h (show isBreak '/' = false from rfl) cs
    rw [List.cons_append] at hs
    unfold Line.Form.ofRest
    rw [List.cons_append]
    simp only [Name.startsName_append h, hs, he, hl]

theorem Keyword.endsKeyword_append (cs : List Char) :
    endsKeyword (cs ++ more) = endsKeyword cs :=
  all_head?_append h rfl rfl cs

theorem Keyword.atFront_append (cs : List Char) : atFront? (cs ++ more) = atFront? cs := by
  obtain ⟨others, ho⟩ := Name.exists_eq_tag_append cs
  have hle : (Name.tag cs).length ≤ cs.length := by
    have := congrArg List.length ho
    rw [List.length_append] at this
    omega
  rw [atFront?, atFront?, Name.tag_append h, List.drop_append_of_le_length hle,
    endsKeyword_append h]

theorem Attribute.endsName_append (cs : List Char) : endsName (cs ++ more) = endsName cs :=
  all_head?_append h rfl rfl cs

end

namespace Extent

variable {more : List Char}

/-- Behind spacing stands what stands there on the line, or what follows the line. -/
theorem dropWhile_append (h : FollowsLine more) (cs : List Char) :
    (cs ++ more).dropWhile isSpacing = cs.dropWhile isSpacing ++ more := by
  induction cs with
  | nil => rcases h.cases with rfl | ⟨rest, rfl | rfl⟩ <;> rfl
  | cons c cs ih =>
    rw [List.cons_append, List.dropWhile_cons, List.dropWhile_cons, ih]
    split <;> rfl

theorem joint_append (h : FollowsLine more) (before cs : List Char) :
    joint before (cs ++ more) = joint before cs := by
  unfold joint
  simp only [dropWhile_append h, any_head?_append h (show isOperatorChar '\n' = false by decide)
    (show isOperatorChar '\r' = false by decide), takeWhile_append h (show isWordChar '\n' = false by decide)
    (show isWordChar '\r' = false by decide)]

namespace Scan

variable {s t : Scan} {mode : Mode} {c : Char} {rest : List Char}

/-- What a scan does on a character depends on the line only, as long as that is no line break. -/
theorem read_append (h : FollowsLine more) (hc : isBreak c = false) :
    s.read mode c (rest ++ more) = s.read mode c rest := by
  have ho : s.readOutside mode c (rest ++ more) = s.readOutside mode c rest := by
    cases rest with
    | cons d rest => rfl
    | nil => rcases h.cases with rfl | ⟨rest, rfl | rfl⟩ <;> rfl
  unfold read readSpacing
  rw [joint_append h, ho]
  simp only [hc]
  rfl

/-- A string or a bracket is open. -/
def Open (s : Scan) : Prop :=
  s.quote.isSome = true ∨ s.outside = false

theorem Open.of_eq {s t : Scan} (h : s.Open) (hq : t.quote = s.quote) (hc : t.closers = s.closers) :
    t.Open := by
  rwa [Open, outside, hq, hc]

/-- Characters are taken unread only where there are some, or where something is open. -/
def Reaches (s : Scan) (rest : List Char) : Prop :=
  s.unread ≤ rest.length ∨ s.Open

/-- Outside brackets and strings only a second question mark is taken unread. -/
theorem reaches_readOutside (hs : s.unread = 0) (h : s.readOutside mode c rest = .next t) :
    t.Reaches rest := by
  unfold readOutside at h
  repeat' split at h
  all_goals first | contradiction | cases h
  · rename_i hq
    obtain ⟨more, rfl⟩ := List.head?_eq_some_iff.1 hq
    exact .inl (Nat.le_add_left 1 _)
  all_goals exact .inl (by simp [keep, hs])

theorem reaches_readQuoted {quote : Char} (hq : s.quote = some quote) (hs : s.unread = 0)
    (h : s.readQuoted quote c = .next t) : t.Reaches rest := by
  unfold readQuoted at h
  repeat' split at h
  all_goals first | contradiction | cases h
  · exact .inr (.inl (by simp [keep, hq]))
  all_goals exact .inl (by simp [keep, hs])

/-- A line break behind which a scan goes on stands in a bracket. -/
theorem open_of_readBreak (h : s.readBreak mode c rest = .next t) : t.Open := by
  unfold readBreak at h
  split at h
  · contradiction
  · rename_i ho
    have ho : s.Open := .inr (by simpa using ho)
    repeat' split at h
    all_goals first | contradiction | cases h
    all_goals exact ho.of_eq rfl rfl

/-- A scan that goes on reaches the characters that it means to take unread. -/
theorem reaches_read (hs : s.unread = 0) (h : s.read mode c rest = .next t) : t.Reaches rest := by
  unfold read at h
  split at h
  · rename_i quote hq
    exact reaches_readQuoted hq hs h
  · split at h
    · exact .inr (open_of_readBreak h)
    · unfold readSpacing readCloser at h
      repeat' split at h
      all_goals first | contradiction | exact reaches_readOutside hs h | cases h
      all_goals exact .inl (by simp [keep, setAside, hs])

theorem read_of_break (hq : s.quote = none) (hc : isBreak c = true) :
    s.read mode c rest = s.readBreak mode c rest := by
  unfold read
  rw [hq]
  dsimp only
  rw [if_pos hc]

/-- Line breaks close nothing. -/
theorem open_of_read_break (ho : s.Open) (hc : isBreak c = true)
    (h : s.read mode c rest = .next t) : t.Open := by
  cases hq : s.quote with
  | none =>
    rw [read_of_break hq hc] at h
    exact open_of_readBreak h
  | some quote =>
    unfold read at h
    rw [hq] at h
    dsimp only at h
    unfold readQuoted at h
    split at h
    · cases h
      exact ho.of_eq rfl rfl
    · rw [hc, Bool.true_and] at h
      split at h
      · contradiction
      · rename_i hquote
        have hne : ¬(c == quote) = true := by
          rw [beq_iff_eq]
          rintro rfl
          rw [bne_iff_ne, ne_eq, not_not] at hquote
          rw [hquote] at hc
          contradiction
        rw [if_neg hne] at h
        cases h
        exact ho.of_eq rfl rfl

/-- A line break ends an expression only where nothing is open. -/
theorem read_break_ne_stop (ho : s.Open) (hc : isBreak c = true) :
    s.read mode c rest ≠ .stop := by
  cases hq : s.quote with
  | none =>
    have hout : s.outside = false := ho.resolve_left (by rw [hq]; decide)
    rw [read_of_break hq hc]
    unfold readBreak
    rw [hout]
    simp only [Bool.false_eq_true, ↓reduceIte]
    repeat' split
    all_goals nofun
  | some quote =>
    unfold read
    rw [hq]
    dsimp only
    unfold readQuoted
    repeat' split
    all_goals nofun

/-- At a line break no word is torn. -/
theorem read_break_ne_tear (hc : isBreak c = true) : s.read mode c rest ≠ .tear := by
  cases hq : s.quote with
  | none =>
    rw [read_of_break hq hc]
    unfold readBreak
    repeat' split
    all_goals nofun
  | some quote =>
    unfold read
    rw [hq]
    dsimp only
    unfold readQuoted
    repeat' split
    all_goals nofun

/-- Nothing that is open is closed by line breaks, nor by characters taken unread before them. -/
theorem run_open {ends : List Char} (hb : ∀ x ∈ ends, isBreak x = true) (ho : s.Open)
    (hs : rest.length ≤ s.unread) : run mode s (rest ++ ends) = .absent := by
  generalize hn : rest ++ ends = cs
  induction cs generalizing s rest ends with
  | nil =>
    have hopen : (s.quote.isSome || !s.outside) = true := by
      rw [Bool.or_eq_true, Bool.not_eq_true']
      exact ho
    unfold run
    rw [if_pos hopen]
  | cons c cs ih =>
    unfold run
    cases hu : s.unread with
    | succ n =>
      have ho' : ({ s.keep c with unread := n } : Scan).Open := ho.of_eq rfl rfl
      cases rest with
      | nil =>
        rw [List.nil_append] at hn
        rw [hn, List.forall_mem_cons] at hb
        exact ih hb.2 ho' (Nat.zero_le _) (List.nil_append cs)
      | cons d rest =>
        rw [List.length_cons, hu] at hs
        exact ih hb ho' (Nat.le_of_succ_le_succ hs) (List.cons.inj hn).2
    | zero =>
      have hnil : rest = [] := List.length_eq_zero_iff.1 (Nat.le_zero.1 (hu ▸ hs))
      rw [hnil, List.nil_append] at hn
      rw [hn, List.forall_mem_cons] at hb
      dsimp only
      split
      · rename_i t ht
        exact ih hb.2 (open_of_read_break ho hb.1 ht) (Nat.zero_le _) (List.nil_append cs)
      · rename_i ht
        exact absurd ht (read_break_ne_stop ho hb.1)
      · rfl
      · rename_i ht
        exact absurd ht (read_break_ne_tear hb.1)

variable {ends ends' text : List Char}

theorem followsLine_of_breaks (hb : ∀ x ∈ ends, isBreak x = true) : FollowsLine ends := by
  cases ends with
  | nil => rfl
  | cons c cs => exact hb c (List.mem_cons_self ..)

/-- A scan for which nothing is open ends where the line does. -/
theorem run_of_followsLine (h : FollowsLine ends) (hquote : s.quote = none)
    (hout : s.outside = true) (hunread : s.unread = 0) : run mode s ends = s.result := by
  cases ends with
  | nil =>
    unfold run
    rw [hquote, hout]
    rfl
  | cons c cs =>
    have hread : s.read mode c cs = .stop := by
      rw [read_of_break hquote h]
      unfold readBreak
      rw [hout]
      rfl
    unfold run
    rw [hunread, hread]

/-- What a scan does at a line break depends on what stands before the end of the text, if the
continuation that it looks for does. -/
theorem readBreak_append (hw : ∀ lineBreak, mode = .statement lineBreak →
    lineBreak.length ≤ rest.length + 1) : s.readBreak mode c (rest ++ ends) = s.readBreak mode c rest := by
  unfold readBreak
  split
  · rfl
  · split
    · rfl
    · rfl
    · rename_i lineBreak
      have hp : lineBreak.isPrefixOf (c :: (rest ++ ends)) = lineBreak.isPrefixOf (c :: rest) := by
        rw [Bool.eq_iff_iff, List.isPrefixOf_iff_prefix, List.isPrefixOf_iff_prefix,
          ← List.cons_append]
        exact ⟨fun hp ↦ List.prefix_of_prefix_length_le hp (List.prefix_append ..)
          (hw lineBreak rfl), fun hp ↦ hp.trans (List.prefix_append ..)⟩
      rw [hp]

/-- At a line break in a bracket, the continuation that a scan looks for goes on behind the end of the
text. -/
structure Overruns (s : Scan) (mode : Mode) (c : Char) (rest : List Char) : Prop where
  isBreak : isBreak c = true
  quote : s.quote = none
  outside : s.outside = false
  continuation : ∃ lineBreak, mode = .statement lineBreak ∧ rest.length + 1 < lineBreak.length

/-- What a scan does on a character depends on the text, unless it looks beyond its end. -/
theorem read_eq_of_not_overruns (h : FollowsLine ends) (hn : ¬s.Overruns mode c rest) :
    s.read mode c (rest ++ ends) = s.read mode c rest := by
  by_cases hc : isBreak c = true
  · cases hq : s.quote with
    | some quote =>
      unfold read
      rw [hq]
    | none =>
      rw [read_of_break hq hc, read_of_break hq hc]
      cases hout : s.outside with
      | true =>
        unfold readBreak
        rw [hout]
        rfl
      | false =>
        refine readBreak_append fun lineBreak hm ↦ ?_
        by_contra hlong
        exact hn ⟨hc, hq, hout, lineBreak, hm, Nat.lt_of_not_le hlong⟩
  · rw [Bool.not_eq_true] at hc
    exact read_append h hc

/-- A continuation that goes on behind the end of the text leaves the bracket open there. -/
theorem run_of_overruns (hb : ∀ x ∈ ends, isBreak x = true) (hs : s.unread = 0)
    (h : s.Overruns mode c rest) : run mode s (c :: (rest ++ ends)) = .absent := by
  obtain ⟨hc, hquote, hout, lineBreak, rfl, hlong⟩ := h
  unfold run
  rw [hs, read_of_break hquote hc, readBreak, hout, if_neg (by decide)]
  dsimp only
  by_cases hp : (!lineBreak.isEmpty && lineBreak.isPrefixOf (c :: (rest ++ ends))) = true
  · rw [if_pos hp]
    exact run_open hb (.inr hout) (Nat.le_sub_one_of_lt (Nat.lt_of_succ_lt hlong))
  · rw [if_neg hp]

/-- What a scan does on a character of an expression that ends before some line breaks. -/
theorem read_ends (hb : ∀ x ∈ ends, isBreak x = true) (h : FollowsLine ends') (hs : s.unread = 0)
    (hr : run mode s (c :: (rest ++ ends)) = .upTo text) :
    s.read mode c (rest ++ ends) = s.read mode c rest ∧
      s.read mode c (rest ++ ends') = s.read mode c rest := by
  have hn : ¬s.Overruns mode c rest := fun ho ↦ by
    rw [run_of_overruns hb hs ho] at hr
    contradiction
  exact ⟨read_eq_of_not_overruns (followsLine_of_breaks hb) hn, read_eq_of_not_overruns h hn⟩

/-- The characters that are taken unread are there, or something is open behind the first as well. -/
theorem Reaches.tail {n : Nat} (hs : s.Reaches (c :: rest)) (hn : s.unread = n + 1) :
    ({ s.keep c with unread := n } : Scan).Reaches rest := by
  refine hs.imp (fun hs ↦ ?_) fun hs ↦ hs.of_eq rfl rfl
  rw [hn, List.length_cons] at hs
  exact Nat.le_of_succ_le_succ hs

/-- A scan that finds an expression before some line breaks finds it whatever follows there in their
stead, and the expression ends before them. -/
theorem run_ends (hb : ∀ x ∈ ends, isBreak x = true) (h : FollowsLine ends')
    (hs : s.Reaches rest) (hr : run mode s (rest ++ ends) = .upTo text) :
    run mode s (rest ++ ends') = .upTo text ∧
      ∃ others, s.passed.reverse ++ rest = text ++ others := by
  induction rest generalizing s with
  | nil =>
    -- At the end nothing is open, so a line break ends the expression as well.
    have hopen : ¬s.Open := fun ho ↦ by
      have hlen : ([] : List Char).length ≤ s.unread := Nat.zero_le _
      rw [run_open hb ho hlen] at hr
      contradiction
    have hunread : s.unread = 0 := Nat.le_zero.1 (hs.resolve_right hopen)
    rw [Open, not_or, Bool.not_eq_false] at hopen
    have hquote : s.quote = none := by simpa using hopen.1
    rw [List.nil_append, run_of_followsLine (followsLine_of_breaks hb) hquote hopen.2 hunread] at hr
    rw [List.nil_append, run_of_followsLine h hquote hopen.2 hunread]
    exact ⟨hr, exists_eq_append_of_result hr []⟩
  | cons c rest ih =>
    rw [List.cons_append] at hr ⊢
    have hread := fun hn ↦ read_ends hb h hn hr
    unfold run at hr ⊢
    split at hr
    · rename_i n hn
      obtain ⟨hrun, others, ho⟩ := ih (hs.tail hn) hr
      exact ⟨hrun, others, by simpa [passed, keep] using ho⟩
    · rename_i hn
      rw [(hread hn).1] at hr
      rw [(hread hn).2]
      split at hr
      · rename_i t ht
        obtain ⟨hrun, others, ho⟩ := ih (reaches_read hn ht) hr
        exact ⟨hrun, others, by simpa [passed_of_read ht] using ho⟩
      · exact ⟨hr, exists_eq_append_of_result hr _⟩
      · contradiction
      · contradiction

/-- How many line breaks a text ends with makes no difference to a scan. -/
theorem run_breaks (hb : ∀ x ∈ ends, isBreak x = true) (hb' : ∀ x ∈ ends', isBreak x = true)
    (hs : s.Reaches rest) : run mode s (rest ++ ends) = run mode s (rest ++ ends') := by
  induction rest generalizing s with
  | nil =>
    by_cases hopen : s.Open
    · have hlen : ([] : List Char).length ≤ s.unread := Nat.zero_le _
      rw [run_open hb hopen hlen, run_open hb' hopen hlen]
    · have hunread : s.unread = 0 := Nat.le_zero.1 (hs.resolve_right hopen)
      rw [Open, not_or, Bool.not_eq_false] at hopen
      have hquote : s.quote = none := by simpa using hopen.1
      rw [List.nil_append, List.nil_append,
        run_of_followsLine (followsLine_of_breaks hb) hquote hopen.2 hunread,
        run_of_followsLine (followsLine_of_breaks hb') hquote hopen.2 hunread]
  | cons c rest ih =>
    rw [List.cons_append, List.cons_append]
    by_cases ho : s.unread = 0 ∧ s.Overruns mode c rest
    · rw [run_of_overruns hb ho.1 ho.2, run_of_overruns hb' ho.1 ho.2]
    · unfold run
      cases hu : s.unread with
      | succ n => exact ih (hs.tail hu)
      | zero =>
        have hn : ¬s.Overruns mode c rest := fun h ↦ ho ⟨hu, h⟩
        dsimp only
        rw [read_eq_of_not_overruns (followsLine_of_breaks hb) hn,
          read_eq_of_not_overruns (followsLine_of_breaks hb') hn]
        cases hr : s.read mode c rest with
        | next t => exact ih (reaches_read hu hr)
        | stop => rfl
        | refuse => rfl
        | tear => rfl

end Scan

end Extent

section

variable {mode : Mode} {ends ends' cs text : List Char}

/-- An expression that is found before some line breaks is found whatever follows there in their
stead, and ends before them. -/
theorem extent_ends (hb : ∀ x ∈ ends, isBreak x = true) (h : FollowsLine ends')
    (hr : extent mode (cs ++ ends) = .upTo text) :
    extent mode (cs ++ ends') = .upTo text ∧ ∃ others, cs = text ++ others :=
  Extent.Scan.run_ends hb h (.inl (Nat.zero_le _)) hr

/-- How many line breaks a text ends with makes no difference to the extent of an expression. -/
theorem extent_breaks (hb : ∀ x ∈ ends, isBreak x = true) (hb' : ∀ x ∈ ends', isBreak x = true) :
    extent mode (cs ++ ends) = extent mode (cs ++ ends') :=
  Extent.Scan.run_breaks hb hb' (.inl (Nat.zero_le _))

/-- An expression that a checked parser accepts before some line breaks is accepted whatever follows
there in their stead. -/
theorem checkedAnswer_ends {E : Type} {check : Mode → List Char → Option E} {handle : E}
    {bytes : Nat} (hb : ∀ x ∈ ends, isBreak x = true) (h : FollowsLine ends')
    (ha : ExpressionParser.checkedAnswer check mode (cs ++ ends) = .accepted handle bytes) :
    ExpressionParser.checkedAnswer check mode (cs ++ ends') = .accepted handle bytes ∧
      ∃ text others, cs = text ++ others ∧ byteLength text = bytes := by
  unfold ExpressionParser.checkedAnswer at ha ⊢
  split at ha
  · rename_i text hr
    obtain ⟨hr, others, ho⟩ := extent_ends hb h hr
    rw [hr]
    refine ⟨ha, text, others, ho, ?_⟩
    split at ha
    · cases ha
      rfl
    · contradiction
  · contradiction
  · contradiction

end

end Pug

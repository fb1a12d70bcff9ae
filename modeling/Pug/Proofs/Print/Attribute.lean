import Pug.Proofs.Print.AttributeName

/-!
# Lists of attributes, written and read back

An entry of a list is written as its name, and its value if it has one. Entries are parted by a
comma or a line break and any blanks behind it. Spacing alone parts them only where nothing bridges
it: behind a value it must not look as if the value went on with the next name.

A list that is written so is read back entry by entry.
-/

namespace Pug

open Text Token Reader Extent

namespace Attribute

/-- A value, escaped or not. -/
structure WrittenValue where
  escaped : Bool
  phrase : Phrase .attributeValue
  ascii : ∀ c ∈ phrase.text, c.val ≤ 127

/-- An entry of a list. -/
structure Written where
  name : WrittenName
  value : Option WrittenValue

namespace WrittenValue

/-- What tells a value to be escaped or not. -/
def mark (v : WrittenValue) : List Char :=
  if v.escaped then ['='] else ['!', '=']

/-- The value does not look as if it went on with a name behind some spacing. -/
def EndsBefore (v : WrittenValue) (name : List Char) : Prop :=
  (∀ c ∈ v.phrase.text.getLast?, isOperatorChar c = false) ∧
    String.ofList (v.phrase.text.reverse.takeWhile isWordChar).reverse ∉ wordOperators ∧
    (∀ c ∈ name.head?, isOperatorChar c = false) ∧
    String.ofList (name.takeWhile isWordChar) ∉ wordOperators

end WrittenValue

namespace Written

def text (e : Written) : List Char :=
  e.name.text ++ (match e.value with
    | none => []
    | some v => v.mark ++ v.phrase.text)

/-- The kind of the entry: only a value can be unescaped. -/
def kind (e : Written) : Kind :=
  match e.value with
  | none => .attrPairEscaped
  | some v => if v.escaped then .attrPairEscaped else .attrPairUnescaped

/-- What parts an entry from the next one. -/
def Parts (e : Written) (gap : List Char) (next : Written) : Prop :=
  (∃ c blanks, gap = c :: blanks ∧ (c = ',' ∨ isBreak c = true) ∧
      ∀ x ∈ blanks, isSeparator x = true) ∨
    gap ≠ [] ∧ (∀ x ∈ gap, isSpacing x = true) ∧ ∀ v ∈ e.value, v.EndsBefore next.name.text

end Written

/-- Entries, each with what parts it from the next, one behind the other. -/
def listed : List (Written × List Char) → List Char
  | [] => []
  | [(e, _)] => e.text
  | (e, gap) :: entries => e.text ++ (gap ++ listed entries)
section Reading

variable {g : Setup Unit Shape} {c d : Cursor} {broken : Failure → Prop}

namespace Written

variable {e next : Written} {gap : List Char}

/-- What may stand behind an entry. -/
def EndsAt (e : Written) (others : List Char) : Prop :=
  match e.value with
  | none => endsName others = true ∧ ∀ c ∈ (others.dropWhile isSpacing).head?, c ≠ '=' ∧ c ≠ '!'
  | some v => Extent.EndsAt .attributeValue v.phrase.text others

/-- What an entry is read as. -/
def sketch (e : Written) : Sketch :=
  ⟨e.kind, String.ofList e.name.raw, e.value.map fun v ↦ String.ofList v.phrase.text, []⟩

/-- An entry without a value ends where its name ends. -/
theorem yields_name {name : WrittenName} (h : c.Leads name.text d)
    (hd : EndsAt ⟨name, none⟩ d.rest) :
    (entry g).Yields c (fun t y ↦ t.sketch = sketch ⟨name, none⟩ ∧ y = d) broken := by
  obtain ⟨hends, hnext⟩ := hd
  have hfollows : FollowsName d.rest := by
    intro x hx
    rw [endsName, hx] at hends
    simp only [Option.all_some, Bool.or_eq_true, beq_iff_eq] at hends
    rcases hends with (hs | rfl) | rfl <;> simp [*]
  have hno : ∀ word : String, word = "!=" ∨ word = "=" → d.skipSpacing.startsWith word = false := by
    intro word hword
    have hrest : d.skipSpacing.rest = d.rest.dropWhile isSpacing := d.rest_skipWhile isSpacing
    rw [Cursor.startsWith, hrest]
    cases hx : d.rest.dropWhile isSpacing with
    | nil => rcases hword with rfl | rfl <;> rfl
    | cons x rest =>
      obtain ⟨hequals, hbang⟩ := hnext x (by rw [hx]; rfl)
      rcases hword with rfl | rfl
      · simp [List.isPrefixOf, Ne.symm hbang]
      · simp [List.isPrefixOf, Ne.symm hequals]
  refine .bind (name.yields h hfollows) ?_
  rintro ⟨place, raw⟩ _ ⟨rfl, rfl⟩
  refine .here (.skipSpacing (.eat_false (hno _ (.inl rfl)) ?_))
  rw [if_neg Bool.false_ne_true]
  refine .eat_false (hno _ (.inr rfl)) ?_
  rw [if_neg Bool.false_ne_true]
  refine .moveTo ?_
  rw [if_pos hends]
  exact .pure ⟨sketch_ofText rfl _ _, rfl⟩

/-- An entry with a value. -/
theorem yields_value {name : WrittenName} {v : WrittenValue} (hg : g.Covers c)
    (h : c.Leads (text ⟨name, some v⟩) d) (hd : EndsAt ⟨name, some v⟩ d.rest) :
    (entry g).Yields c (fun t y ↦ t.sketch = sketch ⟨name, some v⟩ ∧ y = d) broken := by
  obtain ⟨hname, hvalue⟩ := h.split
  obtain ⟨m, hm⟩ : ∃ m, c.past name.text = m := ⟨_, rfl⟩
  rw [hm] at hname hvalue
  obtain ⟨hmark, hphrase⟩ := hvalue.split
  have hexpr : ∀ problem, (expression g .attributeValue problem).Yields (m.past v.mark)
      (fun e y ↦ e.text = String.ofList v.phrase.text ∧ y = d) broken :=
    fun _ ↦ v.phrase.yields ((hg.leads hname).leads hmark) hphrase hd
  have hfront : ∃ x rest, m.rest = x :: rest ∧ (x = '=' ∨ x = '!') := by
    rw [hmark.1, WrittenValue.mark]
    split
    · exact ⟨_, _, rfl, .inl rfl⟩
    · exact ⟨_, _, rfl, .inr rfl⟩
  obtain ⟨x, rest, hx, hmarks⟩ := hfront
  have hfollows : FollowsName m.rest := by
    rw [hx]
    rintro _ ⟨⟩
    exact hmarks.imp_right .inl
  have hspacing : m.skipSpacing = m := by
    refine Cursor.skipWhile_eq_self hx ?_
    rcases hmarks with rfl | rfl <;> rfl
  refine .bind (name.yields hname hfollows) ?_
  rintro ⟨place, raw⟩ m ⟨rfl, rfl⟩
  refine .here (.skipSpacing ?_)
  rw [hspacing]
  obtain ⟨escaped, phrase, ascii⟩ := v
  cases escaped with
  | false =>
    refine .eat_true hmark ?_
    rw [if_pos rfl]
    refine .bind (hexpr _) ?_
    rintro value _ ⟨hv, rfl⟩
    refine .pure ⟨?_, rfl⟩
    rw [sketch_withExpr, sketch_ofText rfl, hv]
    rfl
  | true =>
    have hno : m.startsWith "!=" = false := by
      rw [Cursor.startsWith, hmark.1]
      rfl
    refine .eat_false hno ?_
    rw [if_neg Bool.false_ne_true]
    refine .eat_true hmark ?_
    rw [if_pos rfl]
    refine .bind (hexpr _) ?_
    rintro value _ ⟨hv, rfl⟩
    refine .pure ⟨?_, rfl⟩
    rw [sketch_withExpr, sketch_ofText rfl, hv]
    rfl

theorem yields (e : Written) (hg : g.Covers c) (h : c.Leads e.text d) (hd : e.EndsAt d.rest) :
    (entry g).Yields c (fun t y ↦ t.sketch = e.sketch ∧ y = d) broken := by
  obtain ⟨name, value⟩ := e
  cases value with
  | none =>
    rw [text, List.append_nil] at h
    exact yields_name h hd
  | some v => exact yields_value hg h hd

end Written
/-- A value that does not look as if it went on with a name is apart from it. -/
theorem WrittenValue.joint_eq_apart {v : WrittenValue} {name : WrittenName}
    (h : v.EndsBefore name.text) {blanks others : List Char} (hb : ∀ x ∈ blanks, isSpacing x = true)
    (ho : FollowsName others) :
    joint v.phrase.text.reverse (blanks ++ (name.text ++ others)) = .apart := by
  obtain ⟨hlast, hleft, hfirst, hright⟩ := h
  obtain ⟨c, rest, hc, hstarts⟩ := name.text_eq_cons
  have hspacing : isSpacing c = false := (Bool.or_eq_false_iff.1 hstarts.1).1
  have hnext : (blanks ++ (name.text ++ others)).dropWhile isSpacing = name.text ++ others := by
    rw [List.dropWhile_append_of_pos hb, hc, List.cons_append,
      List.dropWhile_cons_of_neg (by rw [hspacing]; decide)]
  have hbefore : v.phrase.text.reverse.head?.any isOperatorChar = false := by
    rw [List.head?_reverse]
    cases hx : v.phrase.text.getLast? with
    | none => rfl
    | some x => exact hlast x hx
  have hafter : (name.text ++ others).head?.any isOperatorChar = false := by
    rw [hc] at hfirst ⊢
    exact hfirst c rfl
  have hwhole : ((v.phrase.text.reverse.dropWhile isWordChar).head?.any
      fun c ↦ c.utf8Size != 1) = false := by
    cases hx : (v.phrase.text.reverse.dropWhile isWordChar).head? with
    | none => rfl
    | some x =>
      have hmem := (List.dropWhile_sublist _).subset (List.mem_of_head? hx)
      have hsize := Char.utf8Size_eq_one_iff.2 (v.ascii x (List.mem_reverse.1 hmem))
      simpa using hsize
  rw [joint]
  simp only [hnext, hbefore, hafter, hwhole, takeWhile_append_of_detached ho.detached]
  have hwords : ∀ {word : String}, word ∉ wordOperators → wordOperators.contains word = false :=
    fun h ↦ Bool.eq_false_iff.2 (mt List.contains_iff_mem.1 h)
  rw [hwords hleft, hwords hright]
  rfl

/-- What parts two entries ends the first of them. -/
theorem Written.endsAt_of_parts {e next : Written} {gap others : List Char} (h : e.Parts gap next)
    (ho : FollowsName others) : e.EndsAt (gap ++ (next.name.text ++ others)) := by
  obtain ⟨name, value⟩ := e
  rcases h with ⟨x, blanks, rfl, hx, -⟩ | ⟨hne, hgap, hparts⟩
  · cases value with
    | none =>
      have hno : isSpacing x = false ∧ (isSeparator x || x == ',' || x == ')') = true ∧
          x ≠ '=' ∧ x ≠ '!' := by
        simp only [isBreak, Bool.or_eq_true, beq_iff_eq] at hx
        rcases hx with rfl | rfl | rfl <;> exact ⟨rfl, rfl, by decide, by decide⟩
      refine ⟨hno.2.1, ?_⟩
      rw [List.cons_append, List.dropWhile_cons_of_neg (by rw [hno.1]; decide)]
      rintro _ ⟨⟩
      exact hno.2.2
    | some v => exact hx.elim (fun hx ↦ .inr (.inr ⟨rfl, .inl hx⟩)) .inl
  · obtain ⟨x, blanks, rfl⟩ := List.exists_cons_of_ne_nil hne
    rw [List.forall_mem_cons] at hgap
    cases value with
    | none =>
      obtain ⟨c, rest, hc, hstarts⟩ := next.name.text_eq_cons
      refine ⟨?_, ?_⟩
      · change (isSeparator x || x == ',' || x == ')') = true
        rw [isSeparator, hgap.1]
        rfl
      · rw [List.dropWhile_append_of_pos (List.forall_mem_cons.2 hgap), hc, List.cons_append,
          List.dropWhile_cons_of_neg]
        · rintro _ ⟨⟩
          exact hstarts.2.2.2
        · rw [(Bool.or_eq_false_iff.1 hstarts.1).1]
          decide
    | some v =>
      refine .inr (.inr ⟨rfl, .inr ⟨hgap.1, ?_⟩⟩)
      exact WrittenValue.joint_eq_apart (hparts v rfl) hgap.2 ho

/-- Where the next item starts behind an entry: behind blanks, and the comma if there is one. -/
def behind (c : Cursor) : Cursor :=
  if c.skipSeparators.startsWith "," then c.skipSeparators.past [','] else c.skipSeparators

theorem exists_leads_behind (c : Cursor) : ∃ w, c.Leads w (behind c) := by
  rw [behind]
  split
  · rename_i h
    exact ⟨_, c.leads_skipSeparators.trans (Cursor.leads_of_startsWith h)⟩
  · exact ⟨_, c.leads_skipSeparators⟩

/-- An entry behind some blanks, and what parts it from the next. -/
theorem item_yields {e : Written} {start : Cursor} {blanks : List Char} (hg : g.Covers c)
    (hb : ∀ x ∈ blanks, isSeparator x = true) (h : c.Leads (blanks ++ e.text) d)
    (hd : e.EndsAt d.rest) :
    (item g start).Yields c (fun r y ↦ ∃ t, r = .one t ∧ t.sketch = e.sketch ∧ y = behind d)
      broken := by
  obtain ⟨hblanks, hentry⟩ := h.split
  obtain ⟨m, hm⟩ : ∃ m, c.past blanks = m := ⟨_, rfl⟩
  rw [hm] at hblanks hentry
  obtain ⟨x, rest, hx, hstarts⟩ := e.name.text_eq_cons
  have hrest : ∃ rest, m.rest = x :: rest := by
    rw [hentry.1, Written.text, hx]
    exact ⟨_, rfl⟩
  obtain ⟨rest', hrest⟩ := hrest
  have hskip : c.skipSeparators = m := by
    refine Cursor.skipWhile_eq hblanks hb ?_
    rw [hrest]
    rintro _ ⟨⟩
    exact hstarts.1
  refine .skipSeparators (.here ?_)
  rw [hskip, hrest]
  split
  · contradiction
  · rename_i heq
    exact absurd (List.cons.inj heq).1 hstarts.2.1
  · refine .bind (e.yields (hg.leads hblanks) hentry hd) ?_
    rintro t d ⟨ht, rfl⟩
    refine .skipSeparators ?_
    cases hcomma : d.skipSeparators.startsWith "," with
    | true =>
      refine .eat_true (Cursor.leads_of_startsWith hcomma) (.pure ⟨t, rfl, ht, ?_⟩)
      rw [behind, if_pos hcomma]
      rfl
    | false =>
      refine .eat_false hcomma (.pure ⟨t, rfl, ht, ?_⟩)
      rw [behind, if_neg (by rw [hcomma]; decide)]

/-- The end of the list behind some blanks. -/
theorem item_yields_last {start : Cursor} {blanks : List Char}
    (hb : ∀ x ∈ blanks, isSeparator x = true) (h : c.Leads (blanks ++ [')']) d) :
    (item g start).Yields c (fun r y ↦ r = .last [] () ∧ y = d) broken := by
  obtain ⟨hblanks, hclose⟩ := h.split
  have hskip : c.skipSeparators = c.past blanks := by
    refine Cursor.skipWhile_eq hblanks hb ?_
    rw [hclose.1]
    rintro _ ⟨⟩
    rfl
  refine .skipSeparators (.here ?_)
  rw [hskip, hclose.1]
  exact .bump hclose rfl (.pure ⟨rfl, rfl⟩)

/-- Where what parts two entries leads. -/
theorem behind_of_parts {e next : Written} {gap others : List Char} (h : e.Parts gap next)
    (hd : d.rest = gap ++ (next.text ++ others)) : ∃ blanks, (∀ x ∈ blanks, isSeparator x = true) ∧
      (behind d).rest = blanks ++ (next.text ++ others) := by
  obtain ⟨x, rest, hx, hstarts⟩ := next.name.text_eq_cons
  obtain ⟨rest', hrest⟩ : ∃ rest', next.text ++ others = x :: rest' := by
    rw [Written.text, hx]
    exact ⟨_, rfl⟩
  -- Blanks without a comma are all passed over at once.
  have hblanks : (∀ x ∈ gap, isSeparator x = true) → (behind d).rest = next.text ++ others := by
    intro hgap
    have hl := Cursor.leads_past hd
    have hpast : (d.past gap).rest = next.text ++ others := Cursor.rest_past_append d _ _ hd
    have hskip : d.skipSeparators = d.past gap := by
      refine Cursor.skipWhile_eq hl hgap ?_
      rw [hpast, hrest]
      rintro _ ⟨⟩
      exact hstarts.1
    have hcomma : (d.past gap).startsWith "," = false := by
      rw [Cursor.startsWith, hpast, hrest]
      simp [List.isPrefixOf, Ne.symm hstarts.2.2.1]
    rw [behind, hskip, if_neg (by rw [hcomma]; decide), hpast]
  rcases h with ⟨c, blanks, rfl, rfl | hc, hb⟩ | ⟨-, hgap, -⟩
  · refine ⟨blanks, hb, ?_⟩
    have hskip : d.skipSeparators = d := Cursor.skipWhile_eq_self hd rfl
    have hcomma : d.startsWith "," = true := by
      rw [Cursor.startsWith, hd]
      rfl
    rw [behind, hskip, if_pos hcomma]
    exact Cursor.rest_past_append d [','] _ hd
  · refine ⟨[], List.forall_mem_nil _, hblanks (List.forall_mem_cons.2 ⟨?_, hb⟩)⟩
    rw [isSeparator, hc, Bool.or_true]
  · refine ⟨[], List.forall_mem_nil _, hblanks fun x hx ↦ ?_⟩
    rw [isSeparator, hgap x hx, Bool.true_or]

/-- Entries that are parted one from the next. -/
def Parted (entries : List (Written × List Char)) : Prop :=
  entries.IsChain fun a b ↦ a.1.Parts a.2 b.1

/-- What may stand behind an entry, whatever entry it is. -/
def FollowsEntry (others : List Char) : Prop :=
  ∀ c ∈ others.head?, c = ',' ∨ c = ')' ∨ isSeparator c = true

theorem Written.text_append (e : Written) {others : List Char} (h : FollowsEntry others) :
    ∃ behind, e.text ++ others = e.name.text ++ behind ∧ FollowsName behind := by
  obtain ⟨name, value⟩ := e
  rw [text, List.append_assoc]
  refine ⟨_, rfl, ?_⟩
  cases value with
  | none => exact fun c hc ↦ .inr (.inr (h c hc))
  | some v =>
    obtain ⟨escaped, phrase, ascii⟩ := v
    rintro c hc
    cases escaped with
    | false =>
      cases hc
      exact .inr (.inl rfl)
    | true =>
      cases hc
      exact .inl rfl

/-- What parts two entries may stand behind the first. -/
theorem Written.Parts.follows {e next : Written} {gap : List Char} (h : e.Parts gap next)
    (others : List Char) : FollowsEntry (gap ++ others) := by
  rcases h with ⟨x, blanks, rfl, hx, -⟩ | ⟨hne, hgap, -⟩
  · rintro _ ⟨⟩
    refine hx.imp_right fun hx ↦ .inr ?_
    rw [isSeparator, hx, Bool.or_true]
  · obtain ⟨x, blanks, rfl⟩ := List.exists_cons_of_ne_nil hne
    rintro _ ⟨⟩
    refine .inr (.inr ?_)
    rw [isSeparator, hgap x (List.mem_cons_self ..), Bool.true_or]

/-- A list of entries starts with the first of them. -/
theorem exists_listed_eq {e : Written} {gap : List Char} {entries : List (Written × List Char)}
    (h : Parted ((e, gap) :: entries)) (others : List Char) : ∃ behind,
      listed ((e, gap) :: entries) ++ ')' :: others = e.text ++ behind ∧ FollowsEntry behind := by
  cases entries with
  | nil =>
    refine ⟨')' :: others, rfl, ?_⟩
    rintro _ ⟨⟩
    exact .inr (.inl rfl)
  | cons next entries =>
    have hparts := (List.isChain_cons_cons.1 h).1
    refine ⟨gap ++ (listed (next :: entries) ++ ')' :: others), ?_, hparts.follows _⟩
    rw [listed, List.append_assoc, List.append_assoc]
    rintro ⟨⟩

/-- The last entry ends before the parenthesis that closes the list. -/
theorem Written.endsAt_close (e : Written) (others : List Char) : e.EndsAt (')' :: others) := by
  obtain ⟨name, value⟩ := e
  cases value with
  | none =>
    refine ⟨rfl, ?_⟩
    rintro _ ⟨⟩
    decide
  | some v => exact .inr (.inl rfl)

theorem behind_close {others : List Char} (h : c.rest = ')' :: others) : behind c = c := by
  have hskip : c.skipSeparators = c := Cursor.skipWhile_eq_self h rfl
  have hcomma : c.startsWith "," = false := by
    rw [Cursor.startsWith, h]
    rfl
  rw [behind, hskip, if_neg (by rw [hcomma]; decide)]

/-- Behind an entry comes the rest of the list. -/
theorem entry_ends {e : Written} {gap others : List Char} {entries : List (Written × List Char)}
    (h : Parted ((e, gap) :: entries))
    (hd : listed ((e, gap) :: entries) ++ ')' :: others = e.text ++ d.rest) :
    e.EndsAt d.rest ∧ ∃ blanks, (∀ x ∈ blanks, isSeparator x = true) ∧
      (behind d).rest = blanks ++ (listed entries ++ ')' :: others) := by
  cases entries with
  | nil =>
    have hrest : d.rest = ')' :: others := (List.append_cancel_left hd).symm
    refine ⟨?_, [], List.forall_mem_nil _, ?_⟩
    · rw [hrest]
      exact e.endsAt_close others
    · rw [behind_close hrest]
      exact hrest
  | cons next entries =>
    obtain ⟨next, gap'⟩ := next
    obtain ⟨hparts, htail⟩ := List.isChain_cons_cons.1 h
    obtain ⟨text, hlisted, hentry⟩ := exists_listed_eq htail others
    obtain ⟨text', hname, hfollows⟩ := next.text_append hentry
    have hrest : d.rest = gap ++ (next.text ++ text) := by
      rw [listed, List.append_assoc, List.append_assoc, hlisted] at hd
      · exact (List.append_cancel_left hd).symm
      · rintro ⟨⟩
    refine ⟨?_, ?_⟩
    · rw [hrest, hname]
      exact Written.endsAt_of_parts hparts hfollows
    · rw [hlisted]
      exact behind_of_parts hparts hrest

/-- The entries of a list behind some blanks, up to the parenthesis that closes it. -/
theorem entries_yield {entries : List (Written × List Char)} (hparts : Parted entries)
    {start : Cursor} {blanks : List Char} (hb : ∀ x ∈ blanks, isSeparator x = true)
    (hg : g.Covers c) {n : Nat} (hn : c.rest.length < n)
    (h : c.Leads (blanks ++ (listed entries ++ [')'])) d) :
    (gather (item g start) n).Yields c
      (fun r y ↦ r.1.map sketch = entries.map (fun e ↦ e.1.sketch) ∧ y = d) broken := by
  induction entries generalizing c blanks n with
  | nil =>
    refine .gather_last ((item_yields_last hb h).mono ?_) (Nat.zero_lt_of_lt hn)
    rintro _ y ⟨rfl, rfl⟩
    exact ⟨[], (), rfl, rfl, rfl⟩
  | cons e entries ih =>
    obtain ⟨e, gap⟩ := e
    obtain ⟨m, hm⟩ : ∃ m, c.past (blanks ++ e.text) = m := ⟨_, rfl⟩
    obtain ⟨text, hlisted, -⟩ := exists_listed_eq hparts d.rest
    have hc : c.rest = blanks ++ e.text ++ text := by
      rw [h.1, List.append_assoc, List.append_assoc, List.append_assoc]
      exact congrArg (blanks ++ ·) hlisted
    have hentry : c.Leads (blanks ++ e.text) m := hm ▸ Cursor.leads_past hc
    have hrest : m.rest = text := hm ▸ Cursor.rest_past_append c _ _ hc
    obtain ⟨hends, blanks', hb', hbehind⟩ := entry_ends (d := m) hparts (hrest ▸ hlisted)
    obtain ⟨w, hw⟩ := exists_leads_behind m
    have hnext : (behind m).Leads (blanks' ++ (listed entries ++ [')'])) d := by
      refine (hentry.trans hw).cancel h ?_
      rw [hbehind, List.append_assoc, List.append_assoc]
      rfl
    have hmoves : (behind m).rest.length < c.rest.length := by
      obtain ⟨x, rest, hx, -⟩ := e.name.text_eq_cons
      have hlength := (hentry.trans hw).length_rest
      rw [Written.text, hx] at hlength
      simp only [List.length_append, List.length_cons] at hlength
      omega
    refine .gather_one (M := fun t y ↦ t.sketch = e.sketch ∧ y = behind m)
      (item_yields hg hb hentry hends) ?_ hn ?_
    · rintro t _ ⟨-, rfl⟩
      exact hmoves
    · rintro t _ k ⟨ht, rfl⟩ hk
      refine (ih hparts.tail hb' ((hg.leads hentry).leads hw) hk hnext).mono ?_
      rintro r y ⟨hr, rfl⟩
      refine ⟨?_, rfl⟩
      rw [List.map_cons, List.map_cons, ht, hr]

/-- A list of attributes is read entry by entry. -/
theorem list_yields {entries : List (Written × List Char)} (hparts : Parted entries)
    (hg : g.Covers c) (h : c.Leads ('(' :: (listed entries ++ [')'])) d) :
    (Attribute.list g).Yields c (fun t y ↦
      t.sketch = .row .tagAttrList (entries.map fun e ↦ e.1.sketch) ∧ y = d) broken := by
  obtain ⟨hopen, hentries⟩ := h.uncons
  refine .here (.bump hopen rfl (.bind (entries_yield hparts (List.forall_mem_nil _)
    (hg.leads hopen) (hg.leads hopen).rounds hentries) ?_))
  rintro ⟨ts, ⟨⟩⟩ d ⟨hts, rfl⟩
  refine .tokenFrom h (.pure ⟨?_, rfl⟩)
  rw [sketch_withChildren, sketch_container rfl]
  exact congrArg (Sketch.row .tagAttrList) hts

end Reading

end Attribute

end Pug

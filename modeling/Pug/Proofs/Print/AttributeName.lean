import Pug.Proofs.Print.Page

/-!
# Names of attributes, written and read back

A name is written bare, with its parentheses balanced, or in quotes, with a backslash before each
backslash and each quote. It is read as it stands there, up to what may stand behind a name, and
means what it was written for.
-/

namespace Pug

open Text Token Reader Extent

namespace Attribute

/-- A row of the characters of bare names, in which the parentheses balance behind `depth` open
ones. -/
def closes : Nat → List Char → Bool
  | depth, [] => depth == 0
  | depth, c :: rest =>
    if c == '(' then closes (depth + 1) rest
    else if c == ')' then depth != 0 && closes (depth - 1) rest
    else Name.isAttributeChar c && closes depth rest

/-- A name in quotes, with a backslash before each backslash and each quote. -/
def escape (quote : Char) (name : List Char) : List Char :=
  name.flatMap fun c ↦ if c == '\\' || c == quote then ['\\', c] else [c]

/-- A name, and how it is written. -/
inductive WrittenName where
  | bare (name : List Char) (nonempty : name ≠ []) (balanced : closes 0 name = true)
  | quoted (quote : Char) (name : List Char) (isQuote : quote = '"' ∨ quote = '\'')
    (nonempty : name ≠ []) (unbroken : ∀ c ∈ name, isBreak c = false)

namespace WrittenName

/-- The name that is meant. -/
def meaning : WrittenName → List Char
  | bare name _ _ => name
  | quoted _ name _ _ _ => name

/-- The name as it stands in the template, without the quotes. -/
def raw : WrittenName → List Char
  | bare name _ _ => name
  | quoted quote name _ _ _ => escape quote name

def text : WrittenName → List Char
  | bare name _ _ => name
  | quoted quote name _ _ _ => quote :: (escape quote name ++ [quote])

end WrittenName

section Names

theorem bareTail_append_of_closes {depth : Nat} {name others : List Char}
    (h : closes depth name = true)
    (ho : ∀ c ∈ others.head?, Name.isAttributeChar c = false ∧ c ≠ '(') :
    Name.bareTail depth (name ++ others) = (name, 0) := by
  induction name generalizing depth with
  | nil =>
    obtain rfl : depth = 0 := beq_iff_eq.1 h
    cases others with
    | nil => rfl
    | cons c rest =>
      obtain ⟨hc, hopen⟩ := ho c rfl
      rw [List.nil_append, Name.bareTail, if_neg (by simpa using hopen), if_neg (by simp), hc]
      rfl
  | cons c rest ih =>
    rw [closes] at h
    rw [List.cons_append, Name.bareTail]
    split at h
    · rename_i hc
      rw [if_pos hc, ih h]
    · rename_i hc
      rw [if_neg hc]
      split at h
      · rename_i hc'
        rw [Bool.and_eq_true] at h
        rw [hc', Bool.true_and, if_pos h.1, ih h.2]
      · rename_i hc'
        rw [Bool.and_eq_true] at h
        rw [Bool.eq_false_iff.2 hc', Bool.false_and, if_neg (by decide), if_pos h.1, ih h.2]

variable {quote : Char}

theorem escape_cons (c : Char) (name : List Char) : escape quote (c :: name) =
    (if c == '\\' || c == quote then ['\\', c] else [c]) ++ escape quote name :=
  List.flatMap_cons ..

theorem escape_ne_nil {name : List Char} (h : name ≠ []) : escape quote name ≠ [] := by
  obtain ⟨c, rest, rfl⟩ := List.exists_cons_of_ne_nil h
  rw [escape_cons]
  split <;> exact List.cons_ne_nil _ _

/-- A name in quotes ends at the quote that is not escaped. -/
theorem quoted_escape (hq : quote = '"' ∨ quote = '\'') {name : List Char}
    (hb : ∀ c ∈ name, isBreak c = false) (others : List Char) :
    Name.quoted? quote (escape quote name ++ quote :: others) = some (escape quote name) := by
  have hquote : isBreak quote = false ∧ (quote == '\\') = false := by
    rcases hq with rfl | rfl <;> exact ⟨rfl, rfl⟩
  induction name with
  | nil =>
    change Name.quoted? quote (quote :: others) = some []
    rw [Name.quoted?.eq_def]
    simp [hquote.1, hquote.2]
  | cons c rest ih =>
    rw [List.forall_mem_cons] at hb
    rw [escape_cons]
    split
    · change Name.quoted? quote ('\\' :: c :: (escape quote rest ++ quote :: others)) = _
      have hbackslash : isBreak '\\' = false := rfl
      rw [Name.quoted?.eq_def]
      simp [hb.1, ih hb.2, hbackslash]
    · rename_i hc
      rw [Bool.or_eq_true, not_or] at hc
      rw [List.cons_append, List.nil_append, List.cons_append, Name.quoted?.eq_def]
      simp [hb.1, hc.1, hc.2, ih hb.2]

theorem unescape_cons {c : Char} (hc : ¬(c == '\\') = true) (rest : List Char) :
    unescape (c :: rest) = c :: unescape rest := by
  rw [unescape.eq_def]
  exact if_neg hc

/-- What is read of a name in quotes means the name. -/
theorem unescape_escape (name : List Char) : unescape (escape quote name) = name := by
  induction name with
  | nil => rfl
  | cons c rest ih =>
    rw [escape_cons]
    split
    · exact congrArg (c :: ·) ih
    · rename_i hc
      rw [Bool.or_eq_true, not_or] at hc
      rw [List.cons_append, List.nil_append, unescape_cons hc.1, ih]

/-- There is nothing to be undone in a bare name. -/
theorem unescape_of_closes {depth : Nat} {name : List Char} (h : closes depth name = true) :
    unescape name = name := by
  induction name generalizing depth with
  | nil => rfl
  | cons c rest ih =>
    rw [closes] at h
    have hc : ¬(c == '\\') = true := by
      rw [beq_iff_eq]
      rintro rfl
      contradiction
    obtain ⟨depth', hrest⟩ : ∃ depth', closes depth' rest = true := by
      split at h
      · exact ⟨_, h⟩
      · split at h
        · exact ⟨_, (Bool.and_eq_true_iff.1 h).2⟩
        · exact ⟨_, (Bool.and_eq_true_iff.1 h).2⟩
    rw [unescape_cons hc, ih hrest]

theorem WrittenName.unescape_raw (n : WrittenName) : unescape n.raw = n.meaning := by
  cases n with
  | bare name _ balanced => exact unescape_of_closes balanced
  | quoted quote name _ _ _ => exact unescape_escape name

end Names

section Reading

variable {c d : Cursor} {broken : Failure → Prop}

/-- What may stand behind a name. -/
def FollowsName (others : List Char) : Prop :=
  ∀ c ∈ others.head?, c = '=' ∨ c = '!' ∨ c = ',' ∨ c = ')' ∨ isSeparator c = true

/-- The characters that names start with are none of those that stand between entries. -/
def StartsName (c : Char) : Prop :=
  isSeparator c = false ∧ c ≠ ')' ∧ c ≠ ',' ∧ c ≠ '=' ∧ c ≠ '!'

theorem startsName_of_isAttributeChar {c : Char} (hc : Name.isAttributeChar c = true) :
    StartsName c := by
  refine ⟨Bool.eq_false_iff.2 fun hs ↦ ?_, ?_, ?_, ?_, ?_⟩
  · simp only [isSeparator, isSpacing, isBreak, Bool.or_eq_true, beq_iff_eq] at hs
    rcases hs with (rfl | rfl) | (rfl | rfl) <;> contradiction
  all_goals
    rintro rfl
    contradiction

theorem WrittenName.text_eq_cons (n : WrittenName) :
    ∃ c rest, n.text = c :: rest ∧ StartsName c := by
  cases n with
  | bare name nonempty balanced =>
    obtain ⟨c, rest, rfl⟩ := List.exists_cons_of_ne_nil nonempty
    refine ⟨c, rest, rfl, ?_⟩
    rw [closes] at balanced
    split at balanced
    · rename_i hc
      rw [beq_iff_eq.1 hc]
      exact ⟨rfl, by decide⟩
    · split at balanced
      · contradiction
      · exact startsName_of_isAttributeChar (Bool.and_eq_true_iff.1 balanced).1
  | quoted quote name isQuote _ _ =>
    refine ⟨quote, _, rfl, ?_⟩
    rcases isQuote with rfl | rfl <;> exact ⟨rfl, by decide⟩

theorem quotedName_yields {quote : Char} (hq : quote = '"' ∨ quote = '\'') {text : List Char}
    (hb : ∀ c ∈ text, isBreak c = false)
    (h : c.Leads (quote :: (escape quote text ++ [quote])) d) :
    (quotedName quote : Reader Unit _).Yields c
      (fun r y ↦ r.2 = escape quote text ∧ y = d) broken := by
  have hsize : byteLength [quote] = 1 := by
    rcases hq with rfl | rfl <;> rfl
  obtain ⟨hopen, h⟩ := h.uncons
  obtain ⟨hname, hclose⟩ := h.split
  have hread : Name.quoted? quote (c.past [quote]).rest = some (escape quote text) := by
    rw [h.1, List.append_assoc]
    exact quoted_escape hq hb _
  refine .here (.bump hopen hsize (.here ?_))
  rw [hread]
  exact .moveTo (.bump hclose hsize (.pure ⟨rfl, rfl⟩))

theorem bareName_yields {text : List Char} (hb : closes 0 text = true) (h : c.Leads text d)
    (hd : FollowsName d.rest) :
    (bareName : Reader Unit _).Yields c (fun r y ↦ r.2 = text ∧ y = d) broken := by
  have hread : Name.bare? c.rest = some text := by
    rw [h.1, Name.bare?, bareTail_append_of_closes hb]
    intro x hx
    rcases hd x hx with rfl | rfl | rfl | rfl | hs
    any_goals exact ⟨rfl, by decide⟩
    simp only [isSeparator, isSpacing, isBreak, Bool.or_eq_true, beq_iff_eq] at hs
    rcases hs with (rfl | rfl) | (rfl | rfl) <;> exact ⟨rfl, by decide⟩
  refine .here ?_
  rw [hread]
  exact .moveTo (.pure ⟨rfl, h.past_eq⟩)

theorem WrittenName.yields (n : WrittenName) (h : c.Leads n.text d) (hd : FollowsName d.rest) :
    (name : Reader Unit _).Yields c (fun r y ↦ r.2 = n.raw ∧ y = d) broken := by
  have hany : (anyName : Reader Unit _).Yields c (fun r y ↦ r.2 = n.raw ∧ y = d) broken := by
    refine .here ?_
    cases n with
    | bare name nonempty balanced =>
      obtain ⟨x, rest, rfl⟩ := List.exists_cons_of_ne_nil nonempty
      rw [h.1]
      dsimp only [WrittenName.text, List.cons_append, List.head?_cons]
      split
      · cases ‹some x = _›
        contradiction
      · cases ‹some x = _›
        contradiction
      · exact bareName_yields balanced h hd
    | quoted quote name isQuote _ unbroken =>
      rw [h.1]
      have hread : (quotedName quote : Reader Unit _).Yields c
          (fun r y ↦ r.2 = escape quote name ∧ y = d) broken := quotedName_yields isQuote unbroken h
      rcases isQuote with rfl | rfl <;> exact hread
  refine .here (.bind hany ?_)
  rintro ⟨place, text⟩ _ ⟨rfl, rfl⟩
  have hne : n.raw.isEmpty = false := by
    refine List.isEmpty_eq_false_iff.2 ?_
    cases n with
    | bare name nonempty _ => exact nonempty
    | quoted quote name _ nonempty _ => exact escape_ne_nil nonempty
  dsimp only
  rw [hne, if_neg Bool.false_ne_true]
  exact .pure ⟨rfl, rfl⟩
/-- A name does not go on with what follows it. -/
theorem FollowsName.detached {others : List Char} (h : FollowsName others) : Detached others := by
  intro c hc
  rcases h c hc with rfl | rfl | rfl | rfl | hs
  any_goals decide
  simp only [isSeparator, isSpacing, isBreak, Bool.or_eq_true, beq_iff_eq] at hs
  rcases hs with (rfl | rfl) | (rfl | rfl) <;> decide

end Reading

end Attribute

end Pug

import Pug.Text.Blank

/-!
# Names

The names that a template is made of, each as the part of a text that the name takes at its front.
-/

namespace Pug.Name

open Text

/-- The characters of tags, classes, ids and mixins. -/
def isChar (c : Char) : Bool :=
  c.isAlphanum || c == '-' || c == '_'

/-- The characters of a bare attribute name, parentheses apart. -/
def isAttributeChar (c : Char) : Bool :=
  c.isAlphanum || c == '-' || c == '_' || c == ':' || c == '.' || c == '@'

/-- The characters that a variable starts with. -/
def isVariableStart (c : Char) : Bool :=
  c.isAlpha || c == '_' || c == '$'

/-- The characters of a variable. -/
def isVariableChar (c : Char) : Bool :=
  c.isAlphanum || c == '_' || c == '$'

/-- The front of a text is a name character. -/
def startsName (cs : List Char) : Bool :=
  cs.head?.any isChar

/-- The rest of a tag name behind its first character; a `:` belongs to it between two name
characters. -/
def tagTail : List Char → List Char
  | [] => []
  | c :: rest =>
    if isChar c || (c == ':' && startsName rest) then c :: tagTail rest else []

theorem exists_eq_tagTail_append (cs : List Char) : ∃ others, cs = tagTail cs ++ others := by
  induction cs with
  | nil => exact ⟨[], rfl⟩
  | cons c rest ih =>
    obtain ⟨others, h⟩ := ih
    unfold tagTail
    split
    · exact ⟨others, by simp [← h]⟩
    · exact ⟨c :: rest, rfl⟩

/-- A tag name, with its namespaces. It is empty if the text starts with no name character. -/
def tag (cs : List Char) : List Char :=
  if startsName cs then tagTail cs else []

/-- A tag name is a beginning of the text. -/
theorem exists_eq_tag_append (cs : List Char) : ∃ others, cs = tag cs ++ others := by
  unfold tag
  split
  · exact exists_eq_tagTail_append cs
  · exact ⟨cs, rfl⟩

/-- A class or id. -/
def plain (cs : List Char) : List Char :=
  cs.takeWhile isChar

/-- The variable of a loop. It is empty if the text starts with none. -/
def loopVariable (cs : List Char) : List Char :=
  if cs.head?.any isVariableStart then cs.takeWhile isVariableChar else []

/-- The variable of a loop is a beginning of the text. -/
theorem exists_eq_loopVariable_append (cs : List Char) :
    ∃ others, cs = loopVariable cs ++ others := by
  unfold loopVariable
  split
  · exact ⟨_, List.takeWhile_append_dropWhile.symm⟩
  · exact ⟨cs, rfl⟩

/-- A bare attribute name behind `depth` open parentheses, and the parentheses still open at its
end. A closing parenthesis that nothing opened ends the name. -/
def bareTail : Nat → List Char → List Char × Nat
  | depth, [] => ([], depth)
  | depth, c :: rest =>
    if c == '(' then
      let (name, left) := bareTail (depth + 1) rest
      (c :: name, left)
    else if c == ')' && depth != 0 then
      let (name, left) := bareTail (depth - 1) rest
      (c :: name, left)
    else if isAttributeChar c then
      let (name, left) := bareTail depth rest
      (c :: name, left)
    else ([], depth)

theorem exists_eq_bareTail_append (depth : Nat) (cs : List Char) :
    ∃ others, cs = (bareTail depth cs).1 ++ others := by
  induction cs generalizing depth with
  | nil => exact ⟨[], rfl⟩
  | cons c rest ih =>
    unfold bareTail
    split
    · obtain ⟨others, h⟩ := ih (depth + 1)
      exact ⟨others, by simp [← h]⟩
    · split
      · obtain ⟨others, h⟩ := ih (depth - 1)
        exact ⟨others, by simp [← h]⟩
      · split
        · obtain ⟨others, h⟩ := ih depth
          exact ⟨others, by simp [← h]⟩
        · exact ⟨c :: rest, rfl⟩

/-- A bare attribute name. There is none if its parentheses do not balance. -/
def bare? (cs : List Char) : Option (List Char) :=
  match bareTail 0 cs with
  | (name, 0) => some name
  | (_, _ + 1) => none

/-- A bare attribute name is a beginning of the text. -/
theorem exists_eq_append_of_bare {cs name : List Char} (h : bare? cs = some name) :
    ∃ others, cs = name ++ others := by
  obtain ⟨others, hx⟩ := exists_eq_bareTail_append 0 cs
  unfold bare? at h
  split at h <;> cases h
  exact ⟨others, by simp_all⟩

/-- An attribute name up to its closing quote, with its escapes. There is none if the line ends
first; a backslash hides what follows it, but no line break. -/
def quoted? (quote : Char) : List Char → Option (List Char)
  | [] => none
  | c :: rest =>
    if isBreak c then none
    else if c == '\\' then
      match rest with
      | [] => none
      | d :: more =>
        if isBreak d then none else (quoted? quote more).map (fun name ↦ c :: d :: name)
    else if c == quote then some []
    else (quoted? quote rest).map (c :: ·)

/-- A name up to its closing quote is a beginning of the text, and the quote follows it. -/
theorem exists_eq_append_of_quoted {quote : Char} {cs name : List Char}
    (h : quoted? quote cs = some name) : ∃ others, cs = name ++ quote :: others := by
  fun_induction quoted? quote cs generalizing name with
  | case1 => contradiction
  | case2 => contradiction
  | case3 => contradiction
  | case4 => contradiction
  | case5 c _ _ d more _ ih =>
    obtain ⟨inner, hi, rfl⟩ := Option.map_eq_some_iff.1 h
    obtain ⟨others, hx⟩ := ih hi
    exact ⟨others, by simp [hx]⟩
  | case6 c rest _ _ hq =>
    cases h
    exact ⟨rest, by simp_all⟩
  | case7 c rest _ _ _ ih =>
    obtain ⟨inner, hi, rfl⟩ := Option.map_eq_some_iff.1 h
    obtain ⟨others, hx⟩ := ih hi
    exact ⟨others, by simp [hx]⟩

end Pug.Name

import Pug.Proofs.Print.Attribute

/-!
# Names and modifiers, written and read back

A name is read up to the first character that belongs to no name; a `:` belongs to one only between
two characters of names. Behind the name of a tag or of a call its modifiers are read one after the
other, whatever run of text or line the tag stands in, and what stands behind them is read as it
would be without them.
-/

namespace Pug

open Text Token Reader Extent

namespace Tag

/-- Characters of names, and each `:` before one of them. -/
def goesOn : List Char → Bool
  | [] => true
  | c :: rest => (Name.isChar c || (c == ':' && Name.startsName rest)) && goesOn rest

/-- A name with its namespaces. -/
def isName (name : List Char) : Bool :=
  Name.startsName name && goesOn name

/-- A class or an id. -/
structure Note where
  id : Bool
  name : List Char
  nonempty : name ≠ []
  named : ∀ c ∈ name, Name.isChar c = true

/-- What may stand behind a name, in any order. -/
inductive Modifier where
  | note (n : Note)
  | attributes (entries : List (Attribute.Written × List Char))
    (parted : Attribute.Parted entries)
  | spread (e : Phrase .inline)

namespace Modifier

def text : Modifier → List Char
  | note n => (if n.id then '#' else '.') :: n.name
  | attributes entries _ => '(' :: (Attribute.listed entries ++ [')'])
  | spread e => spreadOpener.toList ++ (e.text ++ [')'])

/-- What a modifier is read as. -/
def sketch : Modifier → Sketch
  | note n => .leaf (if n.id then .tagIdNote else .tagClassNote) n.name
  | attributes entries _ => .row .tagAttrList (entries.map fun e ↦ e.1.sketch)
  | spread e => .value .tagAttributes (spreadOpener.toList ++ (e.text ++ [')'])) e.text

end Modifier

section Names

variable {name others : List Char}

theorem startsName_append (h : Name.startsName name = true) (others : List Char) :
    Name.startsName (name ++ others) = true := by
  cases name with
  | nil => contradiction
  | cons c rest => exact h

/-- A name ends before what no name goes on with. -/
theorem tagTail_append (h : goesOn name = true) (ho : Name.tagTail others = []) :
    Name.tagTail (name ++ others) = name := by
  induction name with
  | nil => exact ho
  | cons c rest ih =>
    rw [goesOn, Bool.and_eq_true] at h
    have hc : (Name.isChar c || (c == ':' && Name.startsName (rest ++ others))) = true := by
      have hc := h.1
      rw [Bool.or_eq_true, Bool.and_eq_true] at hc ⊢
      exact hc.imp_right fun hc ↦ ⟨hc.1, startsName_append hc.2 others⟩
    rw [List.cons_append, Name.tagTail, if_pos hc, ih h.2]

theorem tag_append (h : isName name = true) (ho : Name.tagTail others = []) :
    Name.tag (name ++ others) = name := by
  rw [isName, Bool.and_eq_true] at h
  rw [Name.tag, if_pos (startsName_append h.1 others), tagTail_append h.2 ho]

theorem ne_nil_of_isName (h : isName name = true) : name ≠ [] := by
  rintro rfl
  contradiction

/-- A class or id ends before what no name goes on with. -/
theorem plain_append (h : ∀ c ∈ name, Name.isChar c = true) (ho : Name.startsName others = false) :
    Name.plain (name ++ others) = name := by
  have hothers : others.takeWhile Name.isChar = [] := by
    cases others with
    | nil => rfl
    | cons c rest =>
      rw [Name.startsName] at ho
      exact List.takeWhile_cons_of_neg (by simpa using ho)
  rw [Name.plain, List.takeWhile_append_of_pos h, hothers, List.append_nil]

end Names

section Reading

variable {g : Setup Unit Shape} {c d : Cursor} {broken : Failure → Prop} {interpolated : Bool}
variable {inlineTag : Reader Unit (Token Shape)}

theorem note_yields {mark : Char} {name : List Char} {kind : Kind} (hk : kind.isContainer = false)
    (hmark : byteLength [mark] = 1) (hname : ∀ c ∈ name, Name.isChar c = true)
    (h : c.Leads (mark :: name) d) (hd : Name.startsName d.rest = false) :
    (note kind : Reader Unit (Token Shape)).Yields c
      (fun t y ↦ t.sketch = .leaf kind name ∧ y = d) broken := by
  obtain ⟨hopen, h⟩ := h.uncons
  have hplain : Name.plain (c.past [mark]).rest = name := by
    rw [h.1, plain_append hname hd]
  refine .bump hopen hmark (.here ?_)
  dsimp only
  rw [hplain]
  exact .moveTo (.pure ⟨sketch_ofText hk _ _, h.past_eq⟩)

theorem spread_yields {e : Phrase .inline} (hg : g.Covers c)
    (h : c.Leads (spreadOpener.toList ++ (e.text ++ [')'])) d) :
    (spread g).Yields c (fun t y ↦ t.sketch = (Modifier.spread e).sketch ∧ y = d) broken := by
  obtain ⟨hopen, hrest⟩ := h.split
  obtain ⟨m, hm⟩ : ∃ m, c.past spreadOpener.toList = m := ⟨_, rfl⟩
  rw [hm] at hopen hrest
  obtain ⟨hexpr, hclose⟩ := hrest.split
  have hspacing : (m.past e.text).skipSpacing = m.past e.text :=
    Cursor.skipWhile_eq_self hclose.1 rfl
  refine .here (.bump hopen rfl (.bind
    (e.yields (hg.leads hopen) hexpr (.of_closer hclose rfl)) ?_))
  rintro value _ ⟨hv, rfl⟩
  refine .skipSpacing ?_
  rw [hspacing]
  refine .eat_true hclose ?_
  rw [if_pos rfl]
  refine .tokenFrom h (.pure ⟨?_, rfl⟩)
  rw [sketch_withExpr, sketch_ofText rfl, hv]
  rfl

/-- A modifier is one part of a tag. -/
theorem Modifier.yields (m : Modifier) (hg : g.Covers c) (h : c.Leads m.text d)
    (hd : Name.startsName d.rest = false) : (part g inlineTag interpolated).Yields c
      (fun r y ↦ ∃ t, r = .one t ∧ t.sketch = m.sketch ∧ y = d) broken := by
  have hone : ∀ {n : Reader Unit (Token Shape)},
      n.Yields c (fun t y ↦ t.sketch = m.sketch ∧ y = d) broken →
      Yields (do return .one (← n) : Reader Unit (Item (Token Shape) LineTail)) c
        (fun r y ↦ ∃ t, r = .one t ∧ t.sketch = m.sketch ∧ y = d) broken :=
    fun hn ↦ hn.bind fun t _ ht ↦ .pure ⟨t, rfl, ht⟩
  refine .here ?_
  cases m with
  | note n =>
    obtain ⟨id, name, nonempty, named⟩ := n
    have hstarts : Name.startsName (name ++ d.rest) = true := by
      obtain ⟨x, rest, rfl⟩ := List.exists_cons_of_ne_nil nonempty
      exact named x (List.mem_cons_self ..)
    cases id with
    | false =>
      have hpart : Part.ofRest interpolated c.rest = .note .tagClassNote := by
        rw [h.1]
        simp [text, Part.ofRest, isBreak, isSpacing, hstarts]
      rw [hpart]
      exact hone (note_yields rfl rfl named h hd)
    | true =>
      have hpart : Part.ofRest interpolated c.rest = .note .tagIdNote := by
        rw [h.1]
        simp [text, Part.ofRest, isBreak, isSpacing, hstarts]
      rw [hpart]
      exact hone (note_yields rfl rfl named h hd)
  | attributes entries parted =>
    have hpart : Part.ofRest interpolated c.rest = .attributes := by
      rw [h.1]
      simp [text, Part.ofRest, isBreak, isSpacing]
    rw [hpart]
    exact hone (Attribute.list_yields parted hg h)
  | spread e =>
    have hpart : Part.ofRest interpolated c.rest = .spread := by
      rw [h.1]
      simp [text, Part.ofRest, isBreak, isSpacing, spreadOpener]
    rw [hpart]
    exact hone (spread_yields hg h)

/-- What modifiers start with goes on with no name. -/
theorem Modifier.tagTail_text (m : Modifier) (others : List Char) :
    Name.tagTail (m.text ++ others) = [] := by
  cases m with
  | note n =>
    obtain ⟨id, name, nonempty, named⟩ := n
    cases id <;> rfl
  | attributes entries parted => rfl
  | spread e => rfl

theorem startsName_of_tagTail {others : List Char} (h : Name.tagTail others = []) :
    Name.startsName others = false := by
  cases others with
  | nil => rfl
  | cons c rest =>
    rw [Name.tagTail] at h
    split at h
    · contradiction
    · rename_i hc
      rw [Bool.or_eq_true, not_or] at hc
      exact Bool.eq_false_iff.2 hc.1

/-- The modifiers of a tag, one behind the other. -/
def modifiersText (ms : List Modifier) : List Char :=
  ms.flatMap Modifier.text

theorem tagTail_modifiers {ms : List Modifier} {others : List Char}
    (h : Name.tagTail others = []) : Name.tagTail (modifiersText ms ++ others) = [] := by
  cases ms with
  | nil => exact h
  | cons m ms =>
    rw [modifiersText, List.flatMap_cons, List.append_assoc]
    exact m.tagTail_text _

/-- Behind modifiers a tag is read as it would be without them. -/
theorem modifiers_yield {ms : List Modifier}
    {P : List (Token Shape) × LineTail → Cursor → Prop} (hg : g.Covers c)
    (h : c.Leads (modifiersText ms) d) (hd : Name.tagTail d.rest = []) {n : Nat}
    (hn : c.rest.length < n)
    (hk : ∀ k, d.rest.length < k → (gather (part g inlineTag interpolated) k).Yields d P broken) :
    (gather (part g inlineTag interpolated) n).Yields c
      (fun r y ↦ ∃ ts us, r.1 = ts ++ us ∧ ts.map sketch = ms.map Modifier.sketch ∧ P (us, r.2) y)
      broken := by
  induction ms generalizing c n with
  | nil =>
    obtain rfl := h.eq_of_nil
    exact (hk n hn).mono fun r y hp ↦ ⟨[], r.1, rfl, rfl, hp⟩
  | cons m ms ih =>
    rw [modifiersText, List.flatMap_cons] at h
    obtain ⟨hm, hms⟩ := h.split
    have hstarts : Name.startsName (c.past m.text).rest = false := by
      rw [hms.1]
      exact startsName_of_tagTail (tagTail_modifiers hd)
    have hmoves : (c.past m.text).rest.length < c.rest.length := by
      have hlength := hm.length_rest
      have hpos : 0 < m.text.length := by
        cases m <;> exact Nat.succ_pos _
      omega
    refine .gather_one (M := fun t y ↦ t.sketch = m.sketch ∧ y = c.past m.text)
      (m.yields hg hm hstarts) ?_ hn ?_
    · rintro t _ ⟨-, rfl⟩
      exact hmoves
    · rintro t _ k ⟨ht, rfl⟩ hk'
      refine (ih (hg.leads hm) hms hk').mono ?_
      rintro r y ⟨ts, us, hr, hts, hp⟩
      refine ⟨t :: ts, us, by rw [hr]; rfl, ?_, hp⟩
      rw [List.map_cons, List.map_cons, ht, hts]

end Reading

end Tag

end Pug

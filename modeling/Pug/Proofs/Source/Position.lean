import Pug.Proofs.Source.Path
import Pug.Proofs.Text.LineAhead
import Pug.Source.Position

/-!
# Positions are exact

A position is found by walking over the characters before an offset. Going over one character more
either ends the line, and the position is the first one on the next line, or moves on by one column.
From this one step everything is read off by going over the characters one after the other: which
line breaks end at or before an offset, where its line starts, what is on the line, and that a
position grows with the offset.

A *boundary* is the offset of a place, that is, of a character or of the end.
-/

namespace Pug

open Text

namespace Text

/-- The offsets at which the line breaks of a text end, if the text starts at `offset`: a `\r\n` is
one line break, and so is a `\n` or a `\r` alone. -/
def breakEnds (offset : Nat) : List Char → List Nat
  | [] => []
  | '\r' :: '\n' :: rest => (offset + 2) :: breakEnds (offset + 2) rest
  | c :: rest =>
    if isBreak c then (offset + 1) :: breakEnds (offset + 1) rest
    else breakEnds (offset + c.utf8Size) rest

/-- The offsets at which the lines of a text start. -/
def lineStarts (source : List Char) : List Nat :=
  0 :: breakEnds 0 source

/-- The offset at which the line of an offset starts: the last line break that ends at or before the
offset ends there. -/
def lineStart (source : List Char) (offset : Nat) : Nat :=
  ((breakEnds 0 source).filter (· ≤ offset)).getLastD 0

/-- The offset cut down to a boundary: to the start of a character inside of which it is, or to the
end of the text. -/
def floorOffset (source : List Char) (offset : Nat) : Nat :=
  byteLength (firstBytes offset source)

variable {c : Char} {rest before source : List Char} {n o : Nat}

theorem floorOffset_le (source : List Char) (n : Nat) : floorOffset source n ≤ n := by
  unfold floorOffset
  induction source generalizing n with
  | nil => exact Nat.zero_le n
  | cons c rest ih =>
    unfold firstBytes
    split
    · have := ih (n - c.utf8Size)
      rw [byteLength_cons]
      omega
    · exact Nat.zero_le n

theorem byteLength_le_floorOffset (h : byteLength before ≤ n) (rest : List Char) :
    byteLength before ≤ floorOffset (before ++ rest) n := by
  unfold floorOffset
  induction before generalizing n with
  | nil => exact Nat.zero_le _
  | cons c before ih =>
    rw [byteLength_cons] at h
    rw [List.cons_append, firstBytes, if_pos (by omega), byteLength_cons, byteLength_cons]
    exact Nat.add_le_add_left (ih (by omega)) _

theorem utf8Size_of_isBreak (h : isBreak c = true) : c.utf8Size = 1 := by
  rw [isBreak, Bool.or_eq_true, beq_iff_eq, beq_iff_eq] at h
  obtain rfl | rfl := h <;> rfl

theorem endsLine_of_not_isBreak (h : isBreak c = false) (rest : List Char) :
    endsLine c rest = false := by
  rw [isBreak, Bool.or_eq_false_iff] at h
  rw [endsLine, h.1, h.2]
  rfl

/-- A break that does not end its line is the carriage return of a `\r\n`. -/
theorem crlf_of_not_endsLine (hb : isBreak c = true) (h : endsLine c rest = false) :
    c = '\r' ∧ rest.head? = some '\n' := by
  rw [isBreak, Bool.or_eq_true, beq_iff_eq, beq_iff_eq] at hb
  obtain rfl | rfl := hb
  · exact absurd h (by simp [endsLine])
  · exact ⟨rfl, by simpa [endsLine] using h⟩

/-- The line breaks end where the walk over a text takes a line to end. -/
theorem breakEnds_cons (o : Nat) (c : Char) (rest : List Char) : breakEnds o (c :: rest) =
    (if endsLine c rest then [o + c.utf8Size] else []) ++ breakEnds (o + c.utf8Size) rest := by
  by_cases hb : isBreak c = true
  · rw [utf8Size_of_isBreak hb]
    by_cases hend : endsLine c rest = true
    · rw [breakEnds, if_pos hb, if_pos hend]
      · rfl
      · rintro more rfl rfl
        exact absurd hend (by simp [endsLine])
    · obtain ⟨rfl, hhead⟩ := crlf_of_not_endsLine hb (Bool.eq_false_iff.2 hend)
      obtain ⟨more, rfl⟩ := List.head?_eq_some_iff.1 hhead
      rw [breakEnds, if_neg hend, breakEnds, if_pos (show isBreak '\n' = true from rfl)]
      · rfl
      · rintro more ⟨⟩
  · have hend := endsLine_of_not_isBreak (Bool.eq_false_iff.2 hb) rest
    rw [breakEnds, if_neg hb, hend]
    · rfl
    · rintro more rfl
      exact absurd rfl hb

theorem le_of_mem_breakEnds_cons (h : n ∈ breakEnds o (c :: rest)) : o + c.utf8Size ≤ n := by
  induction rest generalizing o c with
  | nil =>
    rw [breakEnds_cons, breakEnds, List.append_nil] at h
    split at h
    · exact (List.mem_singleton.1 h).ge
    · contradiction
  | cons d rest ih =>
    rw [breakEnds_cons, List.mem_append] at h
    obtain h | h := h
    · split at h
      · exact (List.mem_singleton.1 h).ge
      · contradiction
    · exact (Nat.le_add_right _ _).trans (ih h)

theorem lt_of_mem_breakEnds (h : n ∈ breakEnds o source) : o < n := by
  cases source with
  | nil => contradiction
  | cons c rest => exact (Nat.lt_add_of_pos_right c.utf8Size_pos).trans_le (le_of_mem_breakEnds_cons h)

/-- Where a character ends its line, a line break ends. -/
theorem mem_breakEnds (h : endsLine c rest = true) (o : Nat) (before : List Char) :
    o + byteLength (before ++ [c]) ∈ breakEnds o (before ++ c :: rest) := by
  induction before generalizing o with
  | nil =>
    rw [List.nil_append, breakEnds_cons, if_pos h]
    exact List.mem_append_left _ (List.mem_singleton.2 rfl)
  | cons d before ih =>
    rw [List.cons_append, List.cons_append, breakEnds_cons, byteLength_cons, ← Nat.add_assoc]
    exact List.mem_append_right _ (ih _)

/-- One character more is one line break more if it ends its line. -/
theorem filter_breakEnds_next (o : Nat) (before : List Char) (c : Char) (rest : List Char) :
    (breakEnds o (before ++ c :: rest)).filter (· ≤ o + byteLength (before ++ [c])) =
      (breakEnds o (before ++ c :: rest)).filter (· ≤ o + byteLength before) ++
        if endsLine c rest then [o + byteLength (before ++ [c])] else [] := by
  induction before generalizing o with
  | nil =>
    have hnone : (breakEnds o (c :: rest)).filter (· ≤ o) = [] := by
      refine List.filter_eq_nil_iff.2 fun n hn ↦ ?_
      simpa using lt_of_mem_breakEnds hn
    have hrest : (breakEnds (o + c.utf8Size) rest).filter (· ≤ o + c.utf8Size) = [] := by
      refine List.filter_eq_nil_iff.2 fun n hn ↦ ?_
      simpa using lt_of_mem_breakEnds hn
    have hsingle : byteLength ([] ++ [c]) = c.utf8Size := by simp
    rw [hsingle, List.nil_append, byteLength_nil, Nat.add_zero, hnone, breakEnds_cons,
      List.filter_append, hrest, List.append_nil]
    split
    · rw [List.filter_cons_of_pos (by simp)]
      rfl
    · rfl
  | cons d before ih =>
    have hfirst {n : Nat} : (if endsLine d (before ++ c :: rest) then [o + d.utf8Size] else
        []).filter (· ≤ o + d.utf8Size + n) =
        if endsLine d (before ++ c :: rest) then [o + d.utf8Size] else [] := by
      split
      · rw [List.filter_cons_of_pos (by simp)]
        rfl
      · rfl
    rw [List.cons_append, List.cons_append, breakEnds_cons, List.filter_append, List.filter_append,
      byteLength_cons, byteLength_cons, ← Nat.add_assoc, ← Nat.add_assoc, hfirst, hfirst, ih,
      List.append_assoc]

/-- Every line break that ends at or before an offset ends at or before its boundary. -/
theorem filter_breakEnds_floor (o n : Nat) (source : List Char) :
    (breakEnds o source).filter (· ≤ o + n) =
      (breakEnds o source).filter (· ≤ o + floorOffset source n) := by
  induction source generalizing o n with
  | nil => rfl
  | cons c rest ih =>
    unfold floorOffset firstBytes
    split
    case isTrue h =>
      obtain ⟨k, rfl⟩ := Nat.exists_eq_add_of_le h
      rw [breakEnds_cons, List.filter_append, List.filter_append, Nat.add_sub_cancel_left,
        byteLength_cons, ← Nat.add_assoc, ← Nat.add_assoc, ih, floorOffset]
      congr 1
      split
      · rw [List.filter_cons_of_pos (by simp), List.filter_cons_of_pos (by simp)]
        rfl
      · rfl
    case isFalse h =>
      refine List.filter_congr fun k hk ↦ ?_
      have hle := le_of_mem_breakEnds_cons hk
      have hpos := c.utf8Size_pos
      rw [byteLength_nil, decide_eq_decide]
      omega

/-- Characters that break no line stand on the line in front of what follows them. -/
theorem firstLine_append_of_unbroken (h : ∀ c ∈ before, isBreak c = false) (rest : List Char) :
    firstLine (before ++ rest) = before ++ firstLine rest :=
  List.takeWhile_append_of_pos fun c hc ↦ by rw [h c hc]; rfl

end Text

namespace Position

variable {source before rest : List Char} {c : Char} {p q : Position}

/-! ## One step -/

/-- The position behind a character, before which the position is `p`. -/
def next (p : Position) (c : Char) (rest : List Char) : Position :=
  if endsLine c rest then ⟨p.line + 1, 1, firstLine rest⟩ else { p with column := p.column + 1 }

theorem walk_zero (line column : Nat) (onLine cs : List Char) :
    walk line column onLine cs 0 = ⟨line, column, firstLine onLine⟩ := by
  cases cs with
  | nil => rfl
  | cons c rest => rw [walk, if_pos c.utf8Size_pos]

theorem walk_next (line column : Nat) (onLine before : List Char) (c : Char) (rest : List Char) :
    walk line column onLine (before ++ c :: rest) (byteLength (before ++ [c])) =
      (walk line column onLine (before ++ c :: rest) (byteLength before)).next c rest := by
  induction before generalizing line column onLine with
  | nil =>
    have hsize : byteLength ([] ++ [c]) = c.utf8Size := by simp
    rw [hsize, List.nil_append, byteLength_nil, walk_zero, walk, if_neg (lt_irrefl _), Nat.sub_self,
      walk_zero, walk_zero, next]
  | cons d before ih =>
    rw [List.cons_append, List.cons_append, byteLength_cons, byteLength_cons, walk, walk,
      if_neg (Nat.not_lt.2 (Nat.le_add_right _ _)), if_neg (Nat.not_lt.2 (Nat.le_add_right _ _)),
      Nat.add_sub_cancel_left, Nat.add_sub_cancel_left]
    split
    · exact ih _ _ _
    · exact ih _ _ _

theorem walk_floor (line column : Nat) (onLine cs : List Char) (n : Nat) :
    walk line column onLine cs n = walk line column onLine cs (floorOffset cs n) := by
  induction cs generalizing line column onLine n with
  | nil => rfl
  | cons c rest ih =>
    unfold floorOffset firstBytes
    split
    case isTrue h =>
      rw [walk, if_neg (Nat.not_lt.2 h), byteLength_cons, walk,
        if_neg (Nat.not_lt.2 (Nat.le_add_right _ _)), Nat.add_sub_cancel_left]
      split
      · exact ih _ _ _ _
      · exact ih _ _ _ _
    case isFalse h => rw [byteLength_nil, walk_zero, walk, if_pos (Nat.lt_of_not_le h)]

/-- An offset that is no boundary has the position of the boundary before it. -/
theorem ofOffset_floor (source : List Char) (offset : Nat) :
    ofOffset source offset = ofOffset source (floorOffset source offset) :=
  walk_floor 1 1 source source offset

theorem ofOffset_zero (source : List Char) : ofOffset source 0 = ⟨1, 1, firstLine source⟩ :=
  walk_zero 1 1 source source

theorem ofOffset_next (h : source = before ++ c :: rest) :
    ofOffset source (byteLength (before ++ [c])) =
      (ofOffset source (byteLength before)).next c rest := by
  subst h
  exact walk_next 1 1 _ before c rest

/-! ## What a position tells -/

/-- What stands on a line before a place breaks no line, unless it ends in the carriage return of a
`\r\n` whose line feed comes next. -/
def Unbroken (word rest : List Char) : Prop :=
  (∀ c ∈ word, isBreak c = false) ∨ word.getLast? = some '\r' ∧ rest.head? = some '\n'

theorem Unbroken.next {word : List Char} (h : Unbroken word (c :: rest))
    (hend : endsLine c rest = false) : Unbroken (word ++ [c]) rest := by
  obtain h | ⟨-, hfeed⟩ := h
  · by_cases hb : isBreak c = true
    · obtain ⟨rfl, hfeed⟩ := crlf_of_not_endsLine hb hend
      exact .inr ⟨List.getLast?_concat, hfeed⟩
    · refine .inl fun d hd ↦ ?_
      obtain hd | hd := List.mem_append.1 hd
      · exact h d hd
      · rw [List.mem_singleton.1 hd]
        exact Bool.eq_false_iff.2 hb
  · cases hfeed
    exact absurd hend (by simp [endsLine])

/-- The position of the place between `before` and `rest`: the number of the line breaks before it,
and the part `word` of its line that is before it. -/
structure Located (source before rest : List Char) (p : Position) : Prop where
  line : p.line = ((breakEnds 0 source).filter (· ≤ byteLength before)).length + 1
  onLine : ∃ start word, before = start ++ word ∧
    byteLength start = lineStart source (byteLength before) ∧ p.column = word.length + 1 ∧
    p.text = firstLine (word ++ rest) ∧ Unbroken word rest

theorem Located.zero (source : List Char) : Located source [] source (ofOffset source 0) := by
  have hnone : (breakEnds 0 source).filter (· ≤ byteLength []) = [] := by
    refine List.filter_eq_nil_iff.2 fun n hn ↦ ?_
    simpa using (lt_of_mem_breakEnds hn).ne'
  rw [ofOffset_zero]
  exact ⟨by rw [hnone]; rfl, [], [], rfl, by rw [lineStart, hnone]; rfl, rfl, rfl,
    .inl (List.forall_mem_nil _)⟩

theorem Located.next (h : source = before ++ c :: rest) (hp : Located source before (c :: rest) p) :
    Located source (before ++ [c]) rest (p.next c rest) := by
  have hfilter := filter_breakEnds_next 0 before c rest
  rw [← h, Nat.zero_add, Nat.zero_add] at hfilter
  obtain ⟨start, word, hbefore, hstart, hcolumn, htext, hword⟩ := hp.onLine
  by_cases hend : endsLine c rest = true
  · rw [if_pos hend] at hfilter
    rw [Position.next, if_pos hend]
    refine ⟨?_, before ++ [c], [], (List.append_nil _).symm, ?_, rfl, rfl,
      .inl (List.forall_mem_nil _)⟩
    · rw [hfilter, List.length_append, hp.line]
      rfl
    · rw [lineStart, hfilter, List.getLastD_eq_getLast?, List.getLast?_append]
      rfl
  · rw [if_neg hend, List.append_nil] at hfilter
    rw [Position.next, if_neg hend]
    refine ⟨?_, start, word ++ [c], ?_, ?_, ?_, ?_, ?_⟩
    · rw [hfilter, hp.line]
    · rw [hbefore, List.append_assoc]
    · rw [lineStart, hfilter, hstart, lineStart]
    · rw [List.length_append, hcolumn]
      rfl
    · rw [htext, List.append_assoc]
      rfl
    · exact hword.next (Bool.eq_false_iff.2 hend)

/-- The position of every place is located. -/
theorem located (h : source = before ++ rest) :
    Located source before rest (ofOffset source (byteLength before)) := by
  induction before using List.reverseRecOn generalizing rest with
  | nil =>
    obtain rfl : source = rest := h
    exact .zero source
  | append_singleton before c ih =>
    have hsource : source = before ++ c :: rest := by rw [h, List.append_assoc]; rfl
    rw [ofOffset_next hsource]
    exact (ih hsource).next hsource

/-- A position as it should be: how many line breaks end at or before the offset, where the line
starts, how many characters of it are before the offset, and what is on the line. -/
structure Exact (source : List Char) (offset : Nat) (p : Position) : Prop where
  line : p.line = ((breakEnds 0 source).filter (· ≤ offset)).length + 1
  onLine : ∃ c : Cursor, Place source c ∧ c.offset = lineStart source offset ∧ 1 ≤ p.column ∧
    p.column - 1 ≤ c.rest.length ∧
    c.offset + byteLength (c.rest.take (p.column - 1)) = floorOffset source offset ∧
    p.text = c.line
  unbroken : ∀ c ∈ p.text, isBreak c = false

theorem exact (source : List Char) (offset : Nat) :
    Exact source offset (ofOffset source offset) := by
  obtain ⟨others, hsource⟩ := firstBytes_prefix offset source
  have hfilter := filter_breakEnds_floor 0 offset source
  rw [Nat.zero_add, Nat.zero_add] at hfilter
  have hp := located hsource
  rw [← floorOffset, ← ofOffset_floor] at hp
  obtain ⟨start, word, hbefore, hstart, hcolumn, htext, -⟩ := hp.onLine
  rw [hbefore, List.append_assoc] at hsource
  refine ⟨?_, ⟨⟨byteLength start, word ++ others⟩, ⟨start, hsource, ?_⟩, ?_, ?_, ?_, ?_, htext⟩, ?_⟩
  · rw [hfilter]
    exact hp.line
  · exact (Nat.zero_add _).symm
  · rw [lineStart, hfilter]
    exact hstart
  · omega
  · rw [hcolumn, Nat.add_sub_cancel, List.length_append]
    exact Nat.le_add_right _ _
  · rw [hcolumn, Nat.add_sub_cancel, List.take_left, ← byteLength_append, ← hbefore]
    rfl
  · rw [htext]
    exact unbroken_firstLine _

/-! ## Positions grow with the offset -/

/-- The first position is before the second in the template. -/
def Before (p q : Position) : Prop :=
  p.line < q.line ∨ p.line = q.line ∧ p.column < q.column

theorem Before.trans {r : Position} (h : Before p q) (k : Before q r) : Before p r := by
  unfold Before at *
  omega

theorem before_next (p : Position) (c : Char) (rest : List Char) : Before p (p.next c rest) := by
  unfold next
  split
  · exact .inl (Nat.lt_succ_self _)
  · exact .inr ⟨rfl, Nat.lt_succ_self _⟩

/-- A line has one text. -/
theorem text_next (h : (p.next c rest).line ≤ p.line) : (p.next c rest).text = p.text := by
  unfold next at h ⊢
  split at h
  · exact absurd h (Nat.not_succ_le_self _)
  · rename_i hend
    rw [if_neg hend]

theorem before_of_append {v : List Char} (h : source = before ++ (v ++ rest)) (hv : v ≠ []) :
    Before (ofOffset source (byteLength before)) (ofOffset source (byteLength (before ++ v))) := by
  induction v using List.reverseRecOn generalizing rest with
  | nil => contradiction
  | append_singleton v c ih =>
    have hsource : source = (before ++ v) ++ c :: rest := by simp [h]
    rw [← List.append_assoc, ofOffset_next hsource]
    by_cases hnil : v = []
    · rw [hnil, List.append_nil]
      exact before_next _ _ _
    · exact (ih (by rw [hsource, List.append_assoc]) hnil).trans (before_next _ _ _)

theorem line_le_of_append {v : List Char} (h : source = before ++ (v ++ rest)) :
    (ofOffset source (byteLength before)).line ≤ (ofOffset source (byteLength (before ++ v))).line := by
  by_cases hnil : v = []
  · rw [hnil, List.append_nil]
  · have hbefore := before_of_append h hnil
    unfold Before at hbefore
    omega

theorem text_of_append {v : List Char} (h : source = before ++ (v ++ rest))
    (hline : (ofOffset source (byteLength (before ++ v))).line ≤
      (ofOffset source (byteLength before)).line) :
    (ofOffset source (byteLength (before ++ v))).text =
      (ofOffset source (byteLength before)).text := by
  induction v using List.reverseRecOn generalizing rest with
  | nil => rw [List.append_nil]
  | append_singleton v c ih =>
    have hsource : source = (before ++ v) ++ c :: rest := by simp [h]
    have hsplit : source = before ++ (v ++ c :: rest) := by rw [hsource, List.append_assoc]
    rw [← List.append_assoc, ofOffset_next hsource] at hline ⊢
    have hle := line_le_of_append hsplit
    have hnext := (before_next (ofOffset source (byteLength (before ++ v))) c rest)
    unfold Before at hnext
    rw [text_next (by omega), ih hsplit (by omega)]

/-- The offset of a character or of the end. -/
def Boundary (source : List Char) (offset : Nat) : Prop :=
  ∃ c, Place source c ∧ c.offset = offset

theorem exists_append_of_lt {a b : Nat} (ha : Boundary source a) (hb : Boundary source b)
    (h : a < b) : ∃ before v rest, source = before ++ (v ++ rest) ∧ v ≠ [] ∧
      a = byteLength before ∧ b = byteLength (before ++ v) := by
  obtain ⟨c, hc, rfl⟩ := ha
  obtain ⟨d, hd, rfl⟩ := hb
  obtain ⟨v, hv⟩ := hc.leads_to hd h.le
  obtain ⟨before, hsource, hoffset⟩ := hc.exists_split
  refine ⟨before, v, d.rest, by rw [hsource, hv.1], ?_, hoffset, ?_⟩
  · rintro rfl
    exact absurd hv.2 (by simpa using h.ne')
  · rw [hv.2, hoffset, byteLength_append]

/-- Positions grow with the boundaries. -/
theorem before_of_lt {a b : Nat} (ha : Boundary source a) (hb : Boundary source b) (h : a < b) :
    Before (ofOffset source a) (ofOffset source b) := by
  obtain ⟨before, v, rest, hsource, hv, rfl, rfl⟩ := exists_append_of_lt ha hb h
  exact before_of_append hsource hv

/-- Two boundaries with one position are one. -/
theorem boundary_injective {a b : Nat} (ha : Boundary source a) (hb : Boundary source b)
    (hline : (ofOffset source a).line = (ofOffset source b).line)
    (hcolumn : (ofOffset source a).column = (ofOffset source b).column) : a = b := by
  obtain h | h | h := lt_trichotomy a b
  · have hbefore := before_of_lt ha hb h
    unfold Before at hbefore
    omega
  · exact h
  · have hbefore := before_of_lt hb ha h
    unfold Before at hbefore
    omega

theorem boundary_floorOffset (source : List Char) (offset : Nat) :
    Boundary source (floorOffset source offset) :=
  ⟨_, (Place.start source).leads ((Cursor.start source).leads_firstBytes offset), by
    rw [((Cursor.start source).leads_firstBytes offset).2]
    exact Nat.zero_add _⟩

theorem isGreatest_floorOffset (source : List Char) (offset : Nat) :
    IsGreatest {b | Boundary source b ∧ b ≤ offset} (floorOffset source offset) := by
  refine ⟨⟨boundary_floorOffset source offset, floorOffset_le source offset⟩, ?_⟩
  rintro _ ⟨⟨c, hc, rfl⟩, hle⟩
  obtain ⟨before, hsource, hoffset⟩ := hc.exists_split
  rw [hoffset] at hle ⊢
  exact hsource ▸ byteLength_le_floorOffset hle c.rest

/-- What a line shows is the same for all offsets on the line. -/
theorem text_of_line {a b : Nat} (h : (ofOffset source a).line = (ofOffset source b).line) :
    (ofOffset source a).text = (ofOffset source b).text := by
  rw [ofOffset_floor source a, ofOffset_floor source b] at h ⊢
  have ha := boundary_floorOffset source a
  have hb := boundary_floorOffset source b
  obtain hlt | heq | hlt := lt_trichotomy (floorOffset source a) (floorOffset source b)
  · obtain ⟨before, v, rest, hsource, -, hbefore, hv⟩ := exists_append_of_lt ha hb hlt
    rw [hbefore, hv] at h ⊢
    exact (text_of_append hsource h.ge).symm
  · rw [heq]
  · obtain ⟨before, v, rest, hsource, -, hbefore, hv⟩ := exists_append_of_lt hb ha hlt
    rw [hbefore, hv] at h ⊢
    exact text_of_append hsource h.le

end Position

end Pug

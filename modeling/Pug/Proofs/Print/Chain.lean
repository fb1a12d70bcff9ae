import Pug.Proofs.Print.TagLine

/-!
# Lines that follow one another, written and read back

Where a line follows another behind a `:`, it lies under the tag or the call of the other. So what a
chain of lines is read as is told by recursion on the chain, and the lines that follow are read by
induction on it: the outline gets one line after the other, and folding it puts each under the one
before.
-/

namespace Pug

open Text Token Reader Outline
open ExpressionParser (loose)

namespace Tag

/-- A line, and those that follow it behind a `:`. -/
inductive TagLine where
  | ends (front : Front) (ending : Ending)
  | followed (front : Front) (next : TagLine)

namespace TagLine

def writable : TagLine → Bool
  | ends front ending => front.writable && ending.writable
  | followed front next => front.writable && next.writable

def text : TagLine → List Char
  | ends front ending => front.text ++ ending.written
  | followed front next => front.text ++ (':' :: ' ' :: next.text)

/-- What a line is read as. A line that follows stands in the tag or in the call. -/
def sketch : TagLine → Sketch
  | ends front ending => .row .line [front.sketch ending.sketches]
  | followed front next => .row .line [front.sketch [next.sketch]]

/-- The number of lines in a chain. -/
def length : TagLine → Nat
  | ends _ _ => 1
  | followed _ next => next.length + 1

/-- What a chain asks of the lines below it. -/
def tail : TagLine → LineTail
  | ends _ ending => ending.tail
  | followed _ next => next.tail

theorem length_pos (l : TagLine) : 0 < l.length := by
  cases l with
  | ends => exact Nat.one_pos
  | followed => exact Nat.succ_pos _

end TagLine

/-- A line starts with no blank. -/
theorem Front.text_eq_cons {f : Front} (hf : f.writable = true) :
    ∃ x rest, f.text = x :: rest ∧ isSeparator x = false := by
  obtain ⟨head, ms⟩ := f
  cases head with
  | tag name =>
    cases name with
    | nil =>
      cases ms with
      | nil => contradiction
      | cons m ms =>
        cases m with
        | note n =>
          obtain ⟨id, name, nonempty, named⟩ := n
          cases id <;> exact ⟨_, _, rfl, rfl⟩
        | attributes entries parted => exact ⟨_, _, rfl, rfl⟩
        | spread e => exact ⟨_, _, rfl, rfl⟩
    | cons x rest =>
      refine ⟨x, _, rfl, Bool.eq_false_iff.2 fun hs ↦ ?_⟩
      simp only [writable, Bool.and_eq_true] at hf
      have halpha := hf.1.2
      simp only [isSeparator, isSpacing, isBreak, Bool.or_eq_true, beq_iff_eq] at hs
      rcases hs with (rfl | rfl) | (rfl | rfl) <;> contradiction
  | call name argument => exact ⟨_, _, rfl, rfl⟩

theorem TagLine.text_eq_cons {l : TagLine} (hl : l.writable = true) :
    ∃ x rest, l.text = x :: rest ∧ isSeparator x = false := by
  cases l with
  | ends f ending =>
    obtain ⟨x, rest, hx, hs⟩ := Front.text_eq_cons (Bool.and_eq_true_iff.1 hl).1
    exact ⟨x, rest ++ ending.written, by rw [text, hx]; rfl, hs⟩
  | followed f next =>
    obtain ⟨x, rest, hx, hs⟩ := Front.text_eq_cons (Bool.and_eq_true_iff.1 hl).1
    exact ⟨x, rest ++ ':' :: ' ' :: next.text, by rw [text, hx]; rfl, hs⟩

section Outline

variable {E : Type} {f : Front} {ss : List Sketch} {line u : Token E}

theorem sketch_extend (t : Token E) (us : List (Token E)) : (extend t us).sketch =
    { t.sketch with children := t.sketch.children ++ us.map Token.sketch } := by
  rw [sketch_eq, sketch_eq]
  exact congrArg (Sketch.mk _ _ _) List.map_append

/-- What lies under a tag or a call stands behind what else is in it. -/
theorem Front.sketch_extendPayload {p : Token E} (hp : p.sketch = f.sketch ss)
    (us : List (Token E)) :
    (extendPayload p us).sketch = f.sketch (ss ++ us.map Token.sketch) := by
  obtain ⟨head, ms⟩ := f
  obtain ⟨kind, text, span, expr, children⟩ := p
  cases head with
  | tag name =>
    rw [sketch_eq] at hp
    obtain ⟨rfl, -, hexpr, hchildren⟩ := Sketch.mk.inj hp
    obtain ⟨t, rfl, ht⟩ := List.map_eq_singleton_iff.1 hchildren
    change (Token.mk .lineData text span expr [extend t us]).sketch = _
    rw [sketch_eq]
    change Sketch.mk .lineData "" (expr.map Embedded.text) [(extend t us).sketch] = _
    rw [sketch_extend, ht, show expr.map Embedded.text = none from hexpr, List.append_assoc]
    rfl
  | call name argument =>
    have hkind : kind = .mixinCall := congrArg Sketch.kind ((sketch_eq _).symm.trans hp)
    subst hkind
    change (extend (Token.mk .mixinCall text span expr children) us).sketch = _
    rw [sketch_extend, hp]
    simp [Front.sketch]

/-- The line that follows another one lies under its tag or call. -/
theorem sketch_close {p : Token E} (hp : p.sketch = f.sketch []) (hline : line.children = [p])
    (hsketch : line.sketch = .row .line [f.sketch []]) (u : Token E) :
    (Entry.close ⟨line, 0, .payload⟩ [u]).sketch = .row .line [f.sketch [u.sketch]] := by
  rw [close_payload hline, sketch_withChildren, hsketch, List.map_singleton,
    Front.sketch_extendPayload hp]
  rfl

end Outline

section Reading

variable {g : Setup Unit Shape} {c d m : Cursor} {broken : Failure → Prop} {o : Outline Shape}
variable {owner : LineId} {level n : Nat}

/-- A line that follows another one, and those that follow it. -/
theorem followers_succ_yields {m : Cursor} {M : Token Shape × LineTail → Cursor → Prop}
    {post : Outline Shape × LineId × LineTail → Cursor → Prop} (hskip : c.skipSpacing = m)
    (hm : m.atLineEnd = false) (hhas : o.has owner = true)
    (hline : (Line.markup g level).Yields m M broken)
    (hk : ∀ line tail e, M (line, tail) e → (if tail = .follow then
      Page.followers g level n (o.expand owner line).1 (o.expand owner line).2
      else pure ((o.expand owner line).1, (o.expand owner line).2, tail) :
        Reader Unit (Outline Shape × LineId × LineTail)).Yields e post broken) :
    (Page.followers g level (n + 1) o owner).Yields c post broken := by
  unfold Page.followers
  refine .skipSpacing (.here ?_)
  rw [hskip, if_neg (by rw [hm]; decide)]
  refine .bind hline ?_
  rintro ⟨line, tail⟩ e he
  refine .bind (M := fun _ y ↦ y = e) ?_ ?_
  · rw [Page.expectLine, if_pos hhas]
    exact .pure rfl
  · rintro ⟨⟩ e rfl
    exact hk line tail e he

/-- A line that ends is read to its end. -/
theorem markup_yields_ends {f : Front} {ending : Ending}
    (hl : (TagLine.ends f ending).writable = true) (hg : g.Covers c)
    (h : c.Leads (TagLine.ends f ending).text d) (hd : d.atLineEnd = true) :
    (Line.markup g level).Yields c (fun r y ↦
      (r.2 = ending.tail ∧ r.1.sketch = (TagLine.ends f ending).sketch) ∧ y = d) broken := by
  obtain ⟨hf, he⟩ := Bool.and_eq_true_iff.1 hl
  obtain ⟨hfront, hending⟩ := h.split
  have hfollows : FollowsFront (c.past f.text).rest := by
    rw [hending.1]
    exact ending.follows hd
  refine (f.markup_yields hf hg hfront hending hfollows
    (ending.yields he (hg.leads hfront) hending hd)).mono ?_
  rintro r y ⟨⟨htail, -, -, -, hline⟩, rfl⟩
  exact ⟨⟨htail, hline⟩, rfl⟩

/-- A line that another one follows is read up to the `:`, and all of it but the line that follows
is there. -/
theorem markup_yields_followed {f : Front} {next : TagLine}
    (hl : (TagLine.followed f next).writable = true) (hg : g.Covers c)
    (h : c.Leads (TagLine.followed f next).text d) :
    ∃ m, c.Leads (f.text ++ [':']) m ∧ m.Leads (' ' :: next.text) d ∧
      (Line.markup g level).Yields c (fun r y ↦ (r.2 = .follow ∧ ∀ u : Token Shape,
        u.sketch = next.sketch → (Entry.close ⟨r.1, 0, .payload⟩ [u]).sketch =
          (TagLine.followed f next).sketch) ∧ y = m) broken := by
  obtain ⟨hf, he⟩ := Bool.and_eq_true_iff.1 hl
  obtain ⟨hfront, hrest⟩ := h.split
  obtain ⟨hcolon, hnext⟩ := hrest.uncons
  have hfollows : FollowsFront (c.past f.text).rest := by
    rw [hcolon.1, hnext.1]
    exact ⟨rfl, by rintro _ ⟨⟩; decide⟩
  refine ⟨_, hfront.trans hcolon, hnext, (f.markup_yields hf hg hfront hcolon hfollows
    (follow_yields hcolon)).mono ?_⟩
  rintro r y ⟨⟨htail, p, hp, hchildren, hline⟩, rfl⟩
  refine ⟨⟨htail, fun u hu ↦ ?_⟩, rfl⟩
  rw [sketch_close hp hchildren hline, hu]
  rfl

/-- A line that follows may stand behind spacing. -/
theorem exists_start {l : TagLine} (hl : l.writable = true) {w : List Char}
    (hw : ∀ x ∈ w, isSpacing x = true) (h : c.Leads (w ++ l.text) d) :
    ∃ m, c.Leads w m ∧ m.Leads l.text d ∧ c.skipSpacing = m ∧ m.atLineEnd = false := by
  obtain ⟨hspace, hline⟩ := h.split
  obtain ⟨x, rest, hx, hseparator⟩ := TagLine.text_eq_cons hl
  have hfirst : (c.past w).rest = x :: (rest ++ d.rest) := by
    rw [hline.1, hx]
    rfl
  rw [isSeparator, Bool.or_eq_false_iff] at hseparator
  refine ⟨_, hspace, hline, Cursor.skipWhile_eq hspace hw ?_, ?_⟩
  · rw [hfirst]
    rintro _ ⟨⟩
    exact hseparator.1
  · rw [Cursor.atLineEnd, hfirst]
    exact hseparator.2

/-- A chain of lines behind a `:` is read line by line. -/
theorem followers_yields {l : TagLine} (hl : l.writable = true) (hn : l.length ≤ n)
    (hg : g.Covers c) {w : List Char} (hw : ∀ x ∈ w, isSpacing x = true)
    (h : c.Leads (w ++ l.text) d) (hd : d.atLineEnd = true) (hhas : o.has owner = true) :
    (Page.followers g level n o owner).Yields c (fun r y ↦ (r.2.2 = l.tail ∧ ∃ line lines,
      (r.1, r.2.1) = o.follow owner (line :: lines) ∧ lines.length + 1 = l.length ∧
        (nest [] line lines).sketch = l.sketch) ∧ y = d) broken := by
  induction l generalizing c o owner n w with
  | ends f ending =>
    obtain ⟨m, hspace, hline, hskip, hin⟩ := exists_start hl hw h
    obtain ⟨n, rfl⟩ := Nat.exists_eq_succ_of_ne_zero (Nat.ne_of_gt hn)
    refine followers_succ_yields hskip hin hhas
      (markup_yields_ends hl (hg.leads hspace) hline hd) ?_
    rintro line _ d ⟨⟨rfl, hsketch⟩, rfl⟩
    rw [if_neg (by cases ending <;> rintro ⟨⟩)]
    exact .pure ⟨⟨rfl, line, [], rfl, rfl, by rw [nest, extend_nil, hsketch]⟩, rfl⟩
  | followed f next ih =>
    obtain ⟨m, hspace, hline, hskip, hin⟩ := exists_start hl hw h
    obtain ⟨n, rfl⟩ := Nat.exists_eq_succ_of_ne_zero (Nat.ne_of_gt (Nat.zero_lt_of_lt hn))
    have hcovers := hg.leads hspace
    obtain ⟨e, hcolon, hnext, hmarkup⟩ := markup_yields_followed hl hcovers hline
    refine followers_succ_yields hskip hin hhas hmarkup ?_
    rintro line _ e ⟨⟨rfl, hclose⟩, rfl⟩
    rw [if_pos rfl]
    refine (ih (Bool.and_eq_true_iff.1 hl).2 (Nat.le_of_succ_le_succ hn) (hcovers.leads hcolon)
      (List.forall_mem_singleton.2 rfl) hnext (Page.has_expand o owner line)).mono ?_
    rintro r y ⟨⟨htail, line', lines, hr, hlength, hlines⟩, rfl⟩
    exact ⟨⟨htail, line, line' :: lines, hr, congrArg Nat.succ hlength, hclose _ hlines⟩, rfl⟩

/-- A chain of lines is read line by line at a level that may be opened, if it is no longer than there
are levels left. -/
theorem opened_yields {B : Failure → Prop} {l : TagLine} (hl : l.writable = true)
    (hmax : level + l.length ≤ g.maxDepth) (hhas : o.has (o.parentAt level) = true)
    (hcheck : o.checkLevel level = none) (hg : g.Covers c) (h : c.Leads l.text d)
    (hd : d.atLineEnd = true) :
    (Page.chain g level o).Yields c (fun r y ↦ y = d ∧ r.2.2 = l.tail ∧ ∃ line lines o' id,
      o.openLine level line = .ok (o', id) ∧ (r.1, r.2.1) = o'.follow id lines ∧
        lines.length + 1 = l.length ∧ (nest [] line lines).sketch = l.sketch) B := by
  cases l with
  | ends f ending =>
    refine Page.chain_yields hhas hcheck (markup_yields_ends hl hg h hd) ?_
    rintro line _ d o' id ⟨⟨rfl, hsketch⟩, rfl⟩ ho
    rw [if_neg (by cases ending <;> rintro ⟨⟩)]
    exact .pure ⟨rfl, rfl, line, [], o', id, ho, rfl, rfl, by rw [nest, extend_nil, hsketch]⟩
  | followed f next =>
    obtain ⟨m, hcolon, hnext, hmarkup⟩ := markup_yields_followed hl hg h
    have hleft : next.length ≤ g.maxDepth - (level + 1) := by
      rw [TagLine.length] at hmax
      omega
    refine Page.chain_yields hhas hcheck hmarkup ?_
    rintro line _ m o' id ⟨⟨rfl, hclose⟩, rfl⟩ ho
    rw [if_pos rfl]
    refine (followers_yields (Bool.and_eq_true_iff.1 hl).2 hleft (hg.leads hcolon)
      (List.forall_mem_singleton.2 rfl) hnext hd (Page.has_openLine ho)).mono ?_
    rintro r y ⟨⟨htail, line', lines, hr, hlength, hlines⟩, rfl⟩
    exact ⟨rfl, htail, line, line' :: lines, o', id, ho, hr, congrArg Nat.succ hlength,
      hclose _ hlines⟩

/-- A chain of lines that takes a template is read line by line. -/
theorem chain_yields {B : Failure → Prop} {l : TagLine} (hl : l.writable = true)
    (hmax : l.length ≤ g.maxDepth) (hg : g.Covers c) (h : c.Leads l.text d)
    (hd : d.atLineEnd = true) :
    (Page.chain g 0 (.empty g.maxDepth)).Yields c (fun r y ↦
      y = d ∧ r.1.finish.children.map Token.sketch = [l.sketch]) B := by
  have hpos : 0 < g.maxDepth := Nat.lt_of_lt_of_le l.length_pos hmax
  refine (opened_yields hl (by rwa [Nat.zero_add]) rfl (Page.checkLevel_empty hpos) hg h hd).mono ?_
  rintro r y ⟨rfl, -, line, lines, o', id, ho, hr, -, hsketch⟩
  refine ⟨rfl, ?_⟩
  rw [show r.1 = (o'.follow id lines).1 from congrArg Prod.fst hr, Written.finish_of_chain ho,
    List.map_singleton, hsketch]

end Reading

/-- A chain of lines is read back as it is written, if it is no longer than there are levels. -/
theorem lex_tagLine {maxDepth : Nat} {l : TagLine} (hl : l.writable = true)
    (hmax : l.length ≤ maxDepth) : ∃ root, lex loose maxDepth l.text () = .ok root ∧
      root.sketch = .row .root [l.sketch] := by
  have hpos : 0 < maxDepth := by
    cases l with
    | ends => exact hmax
    | followed => exact Nat.zero_lt_of_lt hmax
  obtain ⟨d, hlead, hrest⟩ := Cursor.exists_leads_end l.text
  have hend := Cursor.atLineEnd_of_nil hrest
  obtain ⟨x, rest, hx, hseparator⟩ := TagLine.text_eq_cons hl
  have hchain := chain_yields (B := fun _ ↦ False) hl hmax (covers_start maxDepth l.text) hlead hend
  obtain ⟨o, hlex, ho⟩ | ⟨f, -, hf⟩ := lex_of_chain
    (P := fun o ↦ o.finish.children.map Token.sketch = [l.sketch]) ⟨x, rest, hx, hseparator⟩ hpos
    (hchain.mono fun r y hr ↦ ⟨hr.1 ▸ hrest, hr.2⟩)
  · exact ⟨o.finish, hlex, by rw [sketch_finish, ho]⟩
  · exact hf.elim

/-- An item follows a call, and the call follows a list. -/
theorem lex_tagLine_call : ∃ root, lex loose 3 "ul.x: +all(xs): li#a=n".toList () = .ok root ∧
    root.sketch = .row .root [.row .line [.row .lineData [⟨.tag, "ul", none,
      [.leaf .tagClassNote ['x'], .row .line [⟨.mixinCall, "all", none,
        [.value .mixinArgs "xs".toList "xs".toList, .row .line [.row .lineData [⟨.tag, "li", none,
          [.leaf .tagIdNote ['a'], .value .outputEscaped "=n".toList ['n']]⟩]]]⟩]]⟩]]] :=
  @lex_tagLine 3 (.followed
    ⟨.tag "ul".toList,
      [.note ⟨false, ['x'], List.cons_ne_nil _ _, List.forall_mem_singleton.2 rfl⟩]⟩
    (.followed ⟨.call "all".toList (some ⟨"xs".toList, rfl, by cbv⟩), []⟩
      (.ends ⟨.tag "li".toList,
        [.note ⟨true, ['a'], List.cons_ne_nil _ _, List.forall_mem_singleton.2 rfl⟩]⟩
        (.output true ⟨['n'], rfl, by cbv⟩)))) (by cbv) (Nat.le_refl 3)

end Tag

end Pug

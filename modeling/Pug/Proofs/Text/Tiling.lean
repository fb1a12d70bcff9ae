import Pug.Proofs.Layout.Verbatim
import Pug.Proofs.Lockstep.Tag

/-!
# The pieces of a run cover it

The pieces of a run of text lie one behind the other and cover it from its start to its end. All that
they leave out is a backslash before an opener that it escapes. Literal text is as long as it can be:
it goes up to the end of the run, to an opener or to such a backslash, so what stands behind it is no
literal text unless it is escaped.

A reader goes on in the text that it started in, so from an earlier place of a run to a later one there
is a text between them, whatever reads the inline tags and the expressions.
-/

namespace Pug

open Text Token Reader

variable {σ E : Type}

namespace TextRun

/-- The piece covers the text between two places, but for the backslash before an opener. -/
inductive Covers : Cursor → Token E → Cursor → Prop where
  | literal {c d : Cursor} {w : List Char} (hw : c.Leads w d) (hne : w ≠ [])
    (hbreak : ∀ x ∈ w, isBreak x = false) : Covers c (.ofText .plainText c w) d
  /-- The backslash is left out. -/
  | escaped {c d : Cursor} {w : List Char} (hw : c.Leads ('\\' :: w) d) (hopens : opens w = true)
    (hbreak : ∀ x ∈ w, isBreak x = false) : Covers c (.ofText .plainText (c.past ['\\']) w) d
  /-- Output or an inline tag stands where it is opened. -/
  | embedded {c d : Cursor} {w : List Char} {a : Token E} (hw : c.Leads w d)
    (hkind : a.kind ≠ .plainText) (hspan : a.span = ⟨c.offset, d.offset⟩)
    (htext : a.text = String.ofList w) (hopens : opens c.rest = true) : Covers c a d

/-- The pieces cover the text between two places, one behind the other. -/
def Tiles : Cursor → List (Token E) → Cursor → Prop
  | c, [], d => c = d
  | c, a :: as, e => ∃ d, Covers c a d ∧ Tiles d as e

/-- Between two pieces of literal text one byte is left out. -/
def Parted : List (Token E) → Prop :=
  List.IsChain fun a b ↦ a.kind = .plainText → b.kind = .plainText → a.span.stop + 1 = b.span.start

section Front

variable {interpolated : Bool} {cs text : List Char} {escape : Nat}

/-- Literal text stands there as it is, or behind the backslash that escapes its opener. -/
theorem front_literal_cases (h : Front.ofRest interpolated cs = .literal escape text) :
    escape = 0 ∧ text = literal interpolated cs ∨ ∃ rest, escape = 1 ∧ cs = '\\' :: rest ∧
      opens rest = true ∧ text = rest.take 2 ++ literal interpolated (rest.drop 2) := by
  unfold Front.ofRest at h
  split at h
  · contradiction
  · rename_i c rest
    split at h
    · contradiction
    · split at h
      · contradiction
      · contradiction
      · contradiction
      · split at h
        · rename_i hesc
          obtain ⟨hc, hopen⟩ := Bool.and_eq_true_iff.1 hesc
          cases h
          exact .inr ⟨rest, rfl, by rw [beq_iff_eq.1 hc], hopen, rfl⟩
        · cases h
          exact .inl ⟨rfl, rfl⟩

/-- Output stands where an opener does. -/
theorem exists_opener_of_output {kind : Kind} (h : Front.ofRest interpolated cs = .output kind) :
    ∃ mark rest, cs = mark :: '\x7b' :: rest ∧ isMark mark = true ∧ opens cs = true := by
  unfold Front.ofRest at h
  split at h
  · contradiction
  · split at h
    · contradiction
    · split at h
      · exact ⟨'#', _, rfl, rfl, rfl⟩
      · exact ⟨'!', _, rfl, rfl, rfl⟩
      · contradiction
      · split at h <;> contradiction

/-- Literal text holds no line break. -/
theorem literal_unbroken (interpolated : Bool) (cs : List Char) :
    ∀ x ∈ literal interpolated cs, isBreak x = false := by
  fun_induction literal interpolated cs with
  | case1 => exact List.forall_mem_nil _
  | case2 => exact List.forall_mem_nil _
  | case3 => exact List.forall_mem_nil _
  | case4 c hc hend =>
    rw [beq_iff_eq.1 hc]
    exact List.forall_mem_singleton.2 rfl
  | case5 c hc d more hd hend =>
    rw [beq_iff_eq.1 hc]
    exact List.forall_mem_singleton.2 rfl
  | case6 c hc d more hd hend _ ih =>
    rw [beq_iff_eq.1 hc]
    exact List.forall_mem_cons.2 ⟨rfl, List.forall_mem_cons.2 ⟨Bool.eq_false_iff.2 hd, ih⟩⟩
  | case7 c rest hend _ ih =>
    simp only [Bool.or_eq_true, not_or, Bool.not_eq_true] at hend
    exact List.forall_mem_cons.2 ⟨hend.1.1, ih⟩

/-- Behind literal text no other starts. -/
theorem exists_literal_eq_nil (interpolated : Bool) (cs : List Char) :
    ∃ others, cs = literal interpolated cs ++ others ∧ literal interpolated others = [] := by
  fun_induction literal interpolated cs with
  | case1 => exact ⟨[], rfl, rfl⟩
  | case2 c rest hend => exact ⟨c :: rest, rfl, by rw [literal.eq_def]; exact if_pos hend⟩
  | case3 c rest hend hc hopens =>
    exact ⟨c :: rest, rfl, by rw [beq_iff_eq.1 hc]; exact literal_backslash hopens⟩
  | case4 => exact ⟨[], rfl, rfl⟩
  | case5 c hc d more hd hend _ =>
    exact ⟨d :: more, rfl, by rw [literal.eq_def]; exact if_pos (by simp [hd])⟩
  | case6 c hc d more hd hend hopens ih =>
    obtain ⟨others, hmore, hnil⟩ := ih
    exact ⟨others, by rw [List.cons_append, List.cons_append, ← hmore], hnil⟩
  | case7 c rest hend hc ih =>
    obtain ⟨others, hrest, hnil⟩ := ih
    exact ⟨others, by rw [List.cons_append, ← hrest], hnil⟩

/-- An opener is told by the two characters in front. -/
theorem unbroken_take_of_opens {rest : List Char} (h : opens rest = true) :
    (∀ x ∈ rest.take 2, isBreak x = false) ∧ ∀ more, opens (rest.take 2 ++ more) = true := by
  unfold opens at h
  split at h
  · exact ⟨by simp [isBreak], fun _ ↦ rfl⟩
  · exact ⟨by simp [isBreak], fun _ ↦ rfl⟩
  · exact ⟨by simp [isBreak], fun _ ↦ rfl⟩
  · contradiction

end Front

section Pieces

open Link

variable {g : Setup σ E} {interpolated : Bool} {levels : Nat} {source : List Char}
variable {s t u : ReadState σ} {a b : Token E} {kind : Kind}

/-- The run is over the template. -/
def Over (E : Type) (source : List Char) (s : ReadState σ) : Prop :=
  (beside σ E source fun _ ↦ True).States s s

/-- A reader that can be run beside itself stays in the template. -/
theorem over_of_runsTo {α : Type} {m : Reader σ α} {x : α}
    (h : (beside σ E source fun _ ↦ True).RunsTo m s m s fun _ t _ v ↦
      (beside σ E source fun _ ↦ True).States t v) (hm : m s = .ok x t) : Over E source t := by
  unfold RunsTo RunsUnless at h
  rw [hm] at h
  obtain ⟨y, v, hv, hstates⟩ := h.resolve_left not_false
  cases hv
  exact hstates

/-- Between two places of one template stands the text of the token that reaches from one to the
other. -/
theorem leads_of_tokenFrom (hs : Over E source s) (hu : Over E source u)
    (h : tokenFrom s.cursor kind u = .ok b t) :
    t = u ∧ ∃ w, s.cursor.Leads w t.cursor ∧ b = .ofText kind s.cursor w := by
  obtain ⟨rfl, rfl⟩ := Line.tokenFrom_of_ok h
  have hle : s.cursor.offset ≤ t.cursor.offset := by
    obtain ⟨d, m, hhere, h⟩ := bind_eq_ok.1 h
    cases hhere
    obtain ⟨text, m, htext, -⟩ := bind_eq_ok.1 h
    unfold textBetween at htext
    split at htext
    · rename_i heq
      exact Nat.le_of_add_right_le (Nat.le_of_eq heq)
    · contradiction
  obtain ⟨w, hw, ht, -⟩ := hs.places.between hu.places hle
  have hleads : s.cursor.Leads w t.cursor := ht ▸ hw.leads
  exact ⟨rfl, w, hleads, by rw [hleads.upTo_eq]⟩

/-- What is embedded covers the text from the opener to where its reader ends. -/
theorem covers_of_tokenFrom (hs : Over E source s) (hu : Over E source u)
    (h : tokenFrom s.cursor kind u = .ok b t) (hkind : kind ≠ .plainText)
    (hopens : opens s.cursor.rest = true) (e : Option (Embedded E)) (ts : List (Token E)) :
    Covers s.cursor { b with expr := e, children := ts } t.cursor := by
  obtain ⟨-, w, hw, rfl⟩ := leads_of_tokenFrom hs hu h
  exact .embedded hw hkind (by rw [hw.2]; rfl) rfl hopens

/-- Output ends with the token around its expression. -/
theorem output_of_ok (h : output g kind s = .ok a t) :
    ∃ u b e, tokenFrom s.cursor kind u = .ok b t ∧ a = b.withExpr e := by
  obtain ⟨start, m, hhere, h⟩ := bind_eq_ok.1 h
  cases hhere
  obtain ⟨⟨⟩, m, -, h⟩ := bind_eq_ok.1 h
  obtain ⟨e, m, -, h⟩ := bind_eq_ok.1 h
  obtain ⟨closed, m, -, h⟩ := bind_eq_ok.1 h
  cases closed with
  | false =>
    obtain ⟨c, m, -, h⟩ := bind_eq_ok.1 h
    contradiction
  | true =>
    obtain ⟨b, m', htoken, h⟩ := bind_eq_ok.1 h
    cases h
    exact ⟨_, b, e, htoken, rfl⟩

/-- An inline tag ends with its wrapper. -/
theorem inlineTag_of_ok (h : Tag.inlineTag g levels s = .ok a t) :
    ∃ u b ts, tokenFrom s.cursor .lineData u = .ok b t ∧ a = b.withChildren ts := by
  cases levels with
  | zero =>
    obtain ⟨c, m, -, h⟩ := bind_eq_ok.1 h
    contradiction
  | succ levels =>
    obtain ⟨start, m, hhere, h⟩ := bind_eq_ok.1 h
    cases hhere
    obtain ⟨⟨⟩, m, -, h⟩ := bind_eq_ok.1 h
    obtain ⟨c, m, -, h⟩ := bind_eq_ok.1 h
    obtain ⟨⟨⟩, m, -, h⟩ := bind_eq_ok.1 h
    obtain ⟨r, m, -, h⟩ := bind_eq_ok.1 h
    dsimp only at h
    split at h
    · contradiction
    · obtain ⟨closed, m, -, h⟩ := bind_eq_ok.1 h
      cases closed with
      | false =>
        obtain ⟨c, m, -, h⟩ := bind_eq_ok.1 h
        contradiction
      | true =>
        obtain ⟨b, m', htoken, h⟩ := bind_eq_ok.1 h
        cases h
        exact ⟨_, b, _, htoken, rfl⟩

/-- Passing a text in front stays in the template. -/
theorem Over.past (hs : Over E source s) {w others : List Char} (hr : s.cursor.rest = w ++ others)
    (hw : ∀ x ∈ w, isBreak x = false) : Over E source { s with cursor := s.cursor.past w } :=
  ⟨hs.places.past hr hw, hs.parsers, hs.units⟩

/-- Output covers the text from its opener to its closing bracket. -/
theorem output_covers (hs : Over E source s)
    (hfront : Front.ofRest interpolated s.cursor.rest = .output kind) (h : output g kind s = .ok a t) :
    Over E source t ∧ Covers s.cursor a t.cursor ∧ a.kind ≠ .plainText := by
  obtain ⟨mark, rest, hr, hmark, hopens⟩ := exists_opener_of_output hfront
  have hkind : kind ≠ .plainText := by
    rintro rfl
    exact absurd (isOutput_of_front hfront) (by decide)
  have hsize : byteLength [mark, '\x7b'] = 2 := by
    rw [byteLength_cons, utf8Size_of_isMark hmark]
    rfl
  have hbreak : ∀ x ∈ [mark, '\x7b'], isBreak x = false := by
    simpa [isBreak_of_isMark hmark] using (by decide : isBreak '\x7b' = false)
  have hover : Over E source t := over_of_runsTo
    ((TextRun.output_runsTo (setups_beside g) hs hr hbreak hsize kind).mono fun _ _ _ _ h ↦ h.2) h
  obtain ⟨u, b, e, htoken, rfl⟩ := output_of_ok h
  obtain ⟨rfl, rfl⟩ := Line.tokenFrom_of_ok htoken
  exact ⟨hover, covers_of_tokenFrom hs hover htoken hkind hopens (some e) [], hkind⟩

/-- An inline tag covers the text from its opener to its closing bracket. -/
theorem inlineTag_covers (hs : Over E source s)
    (hfront : Front.ofRest interpolated s.cursor.rest = .inlineTag)
    (h : Tag.inlineTag g levels s = .ok a t) :
    Over E source t ∧ Covers s.cursor a t.cursor ∧ a.kind ≠ .plainText := by
  obtain ⟨rest, hr⟩ := inlineTag_of_front hfront
  have hopens : opens s.cursor.rest = true := by
    rw [hr]
    rfl
  have hover : Over E source t := over_of_runsTo
    ((inlineTag_runsTo (setups_beside g) levels s s rest hs hr).mono fun _ _ _ _ h ↦ h.2) h
  obtain ⟨u, b, ts, htoken, rfl⟩ := inlineTag_of_ok h
  obtain ⟨rfl, rfl⟩ := Line.tokenFrom_of_ok htoken
  have hkind : Kind.lineData ≠ .plainText := by decide
  exact ⟨hover, covers_of_tokenFrom hs hover htoken hkind hopens none ts, hkind⟩

/-- Literal text covers itself, and no other literal text starts behind it. -/
theorem literal_covers (hs : Over E source s) (hne : literal interpolated s.cursor.rest ≠ []) :
    Over E source { s with cursor := s.cursor.past (literal interpolated s.cursor.rest) } ∧
      Covers s.cursor
        (Token.ofText .plainText s.cursor (literal interpolated s.cursor.rest) : Token E)
        (s.cursor.past (literal interpolated s.cursor.rest)) ∧
      literal interpolated (s.cursor.past (literal interpolated s.cursor.rest)).rest = [] := by
  obtain ⟨others, ho, hnil⟩ := exists_literal_eq_nil interpolated s.cursor.rest
  have hbreak := literal_unbroken interpolated s.cursor.rest
  refine ⟨hs.past ho hbreak, .literal (Cursor.leads_past ho) hne hbreak, ?_⟩
  rw [Cursor.rest_past_append _ _ _ ho]
  exact hnil

/-- Literal text behind a backslash covers that as well. -/
theorem escaped_covers {rest : List Char} (hs : Over E source s) (hr : s.cursor.rest = '\\' :: rest)
    (hopens : opens rest = true) :
    Over E source { s with
        cursor := (s.cursor.past ['\\']).past (rest.take 2 ++ literal interpolated (rest.drop 2)) } ∧
      Covers s.cursor (Token.ofText .plainText (s.cursor.past ['\\'])
          (rest.take 2 ++ literal interpolated (rest.drop 2)) : Token E)
        ((s.cursor.past ['\\']).past (rest.take 2 ++ literal interpolated (rest.drop 2))) ∧
      literal interpolated ((s.cursor.past ['\\']).past
        (rest.take 2 ++ literal interpolated (rest.drop 2))).rest = [] := by
  obtain ⟨others, ho, hnil⟩ := exists_literal_eq_nil interpolated (rest.drop 2)
  obtain ⟨hunbroken, hopens⟩ := unbroken_take_of_opens hopens
  have hrest : (s.cursor.past ['\\']).rest =
      (rest.take 2 ++ literal interpolated (rest.drop 2)) ++ others := by
    rw [Cursor.rest_past_append _ _ rest hr, List.append_assoc, ← ho, List.take_append_drop]
  have hbreak := List.forall_mem_append.2 ⟨hunbroken, literal_unbroken interpolated (rest.drop 2)⟩
  have hl := (Cursor.leads_past hr).trans (Cursor.leads_past hrest)
  refine ⟨(hs.past hr (by simp [isBreak])).past hrest hbreak, .escaped hl (hopens _) hbreak, ?_⟩
  rw [Cursor.rest_past_append _ _ _ hrest]
  exact hnil

/-- A piece covers the text that it is read from. Behind literal text no other piece of it follows
unless it is escaped. -/
theorem piece_covers (hs : Over E source s)
    (h : piece g (Tag.inlineTag g levels) interpolated s = .ok (.one a) t) :
    Over E source t ∧ Covers s.cursor a t.cursor ∧
      (a.kind = .plainText → literal interpolated t.cursor.rest = [] ∧
        (literal interpolated s.cursor.rest = [] → a.span.start = s.cursor.offset + 1)) := by
  rw [piece, bind_of_ok (here_eq s)] at h
  cases hfront : Front.ofRest interpolated s.cursor.rest with
  | finished =>
    rw [hfront] at h
    cases h
  | output kind =>
    rw [hfront] at h
    obtain ⟨a, m, hout, h⟩ := bind_eq_ok.1 h
    cases h
    obtain ⟨hover, hcovers, hkind⟩ := output_covers hs hfront hout
    exact ⟨hover, hcovers, fun hk ↦ absurd hk hkind⟩
  | inlineTag =>
    rw [hfront] at h
    obtain ⟨a, m, htag, h⟩ := bind_eq_ok.1 h
    cases h
    obtain ⟨hover, hcovers, hkind⟩ := inlineTag_covers hs hfront htag
    exact ⟨hover, hcovers, fun hk ↦ absurd hk hkind⟩
  | literal escape text =>
    rw [hfront] at h
    obtain ⟨⟨⟩, m, hbump, h⟩ := bind_eq_ok.1 h
    obtain ⟨c, m', hhere, h⟩ := bind_eq_ok.1 h
    cases hhere
    cases h
    obtain ⟨-, -, -, -, -, hne⟩ := literal_of_front hfront
    rcases front_literal_cases hfront with ⟨rfl, rfl⟩ | ⟨rest, rfl, hr, hopens, rfl⟩
    · -- The text stands there as it is.
      obtain rfl : m = s := (ensures_bump (w := []) ⟨rfl, rfl⟩ rfl rfl :
        (bump 0).Ensures s (fun _ m ↦ m = s) fun _ _ ↦ True).of_ok hbump
      obtain ⟨hover, hcovers, hnil⟩ := literal_covers hs hne
      exact ⟨hover, hcovers, fun _ ↦ ⟨hnil, fun hstart ↦ absurd hstart hne⟩⟩
    · -- It stands behind the backslash.
      have hfirst : s.cursor.Leads ['\\'] (s.cursor.past ['\\']) := Cursor.leads_past hr
      obtain rfl : m = { s with cursor := s.cursor.past ['\\'] } := (ensures_bump hfirst rfl rfl :
        (bump 1).Ensures s (fun _ m ↦ m = { s with cursor := s.cursor.past ['\\'] })
          fun _ _ ↦ True).of_ok hbump
      obtain ⟨hover, hcovers, hnil⟩ := escaped_covers hs hr hopens
      exact ⟨hover, hcovers, fun _ ↦ ⟨hnil, fun _ ↦ hfirst.2⟩⟩

/-- The last item of a run stands at its end and is none. -/
theorem piece_last {ts : List (Token E)} {x : Unit}
    (h : piece g (Tag.inlineTag g levels) interpolated s = .ok (.last ts x) t) :
    t = s ∧ ts = [] ∧ s.cursor.atRunEnd interpolated = true := by
  rw [piece, bind_of_ok (here_eq s)] at h
  cases hfront : Front.ofRest interpolated s.cursor.rest with
  | finished =>
    rw [hfront] at h
    cases h
    exact ⟨rfl, rfl, atRunEnd_of_front hfront⟩
  | output kind =>
    rw [hfront] at h
    obtain ⟨a, m, -, h⟩ := bind_eq_ok.1 h
    cases h
  | inlineTag =>
    rw [hfront] at h
    obtain ⟨a, m, -, h⟩ := bind_eq_ok.1 h
    cases h
  | literal escape text =>
    rw [hfront] at h
    obtain ⟨⟨⟩, m, -, h⟩ := bind_eq_ok.1 h
    obtain ⟨c, m', -, h⟩ := bind_eq_ok.1 h
    cases h

/-- Where literal text ends, a piece of it that follows stands behind a backslash. -/
def Resumes (c : Cursor) (ts : List (Token E)) : Prop :=
  ∀ a ∈ ts.head?, a.kind = .plainText → a.span.start = c.offset + 1

theorem Covers.stop {c d : Cursor} (h : Covers c a d) : a.span.stop = d.offset := by
  cases h with
  | literal hw => exact hw.2.symm
  | escaped hw => exact (Cursor.Leads.split (v := ['\\']) hw).2.2.symm
  | embedded _ _ hspan => rw [hspan]

/-- The pieces of a run cover it. -/
theorem gather_tiles {n : Nat} {r : List (Token E) × Unit} (hs : Over E source s)
    (h : gather (piece g (Tag.inlineTag g levels) interpolated) n s = .ok r t) :
    Tiles s.cursor r.1 t.cursor ∧ Parted r.1 ∧ t.cursor.atRunEnd interpolated = true ∧
      (literal interpolated s.cursor.rest = [] → Resumes s.cursor r.1) := by
  induction n generalizing s r with
  | zero => contradiction
  | succ n ih =>
    obtain ⟨item, m, hitem, h⟩ := bind_eq_ok.1 h
    cases item with
    | last ts x =>
      obtain ⟨rfl, rfl, hend⟩ := piece_last hitem
      cases h
      exact ⟨rfl, .nil, hend, fun _ ↦ nofun⟩
    | one a =>
      obtain ⟨q, m', hrest, h⟩ := bind_eq_ok.1 h
      cases h
      obtain ⟨hm, hcovers, hliteral⟩ := piece_covers hs hitem
      obtain ⟨htiles, hparted, hend, hresumes⟩ := ih hm hrest
      refine ⟨⟨_, hcovers, htiles⟩, List.isChain_cons.2 ⟨fun b hb ha hbk ↦ ?_, hparted⟩, hend, ?_⟩
      · rw [hcovers.stop]
        exact (hresumes (hliteral ha).1 b hb hbk).symm
      · rintro hnil _ ⟨⟩ hk
        exact (hliteral hk).2 hnil

end Pieces

section Whole

variable {interpolated : Bool} {c d e : Cursor} {a : Token E} {ts : List (Token E)}
variable {v w others : List Char}

/-- Only one text leads from a place to another. -/
theorem eq_of_leads (hv : c.Leads v d) (hw : c.Leads w d) : v = w := by
  rw [← hv.upTo_eq, hw.upTo_eq]

theorem Covers.exists_leads (h : Covers c a d) : ∃ w, c.Leads w d := by
  cases h with
  | literal hw => exact ⟨_, hw⟩
  | escaped hw => exact ⟨_, hw⟩
  | embedded hw => exact ⟨_, hw⟩

theorem Tiles.exists_leads (h : Tiles c ts d) : ∃ w, c.Leads w d := by
  induction ts generalizing c with
  | nil =>
    obtain rfl : c = d := h
    exact ⟨[], .refl c⟩
  | cons a as ih =>
    obtain ⟨m, hcovers, htiles⟩ := h
    obtain ⟨v, hv⟩ := hcovers.exists_leads
    obtain ⟨w, hw⟩ := ih htiles
    exact ⟨v ++ w, hv.trans hw⟩

/-- No opener reaches over the end of a run. -/
theorem not_opens_append (h : opens w = false) (hend : d.atRunEnd interpolated = true) :
    opens (w ++ d.rest) = false := by
  have hhead : ∀ x ∈ d.rest.head?, isBreak x = true ∨ x = ']' := by
    intro x hx
    rw [Cursor.atRunEnd, Cursor.atLineEnd, hx] at hend
    simp only [Option.all_some, Bool.or_eq_true, Bool.and_eq_true, beq_iff_eq] at hend
    exact hend.imp_right fun h ↦ Option.some.inj h.2
  have hno : ∀ x ∈ d.rest.head?, x ≠ '#' ∧ x ≠ '!' ∧ x ≠ '\x7b' ∧ x ≠ '[' := by
    intro x hx
    rcases hhead x hx with hb | rfl
    · simp only [isBreak, Bool.or_eq_true, beq_iff_eq] at hb
      rcases hb with rfl | rfl <;> decide
    · decide
  cases w with
  | nil =>
    rw [List.nil_append]
    cases hd : d.rest with
    | nil => rfl
    | cons x rest =>
      refine Bool.eq_false_iff.2 fun hopens ↦ ?_
      obtain ⟨-, -, -, hmark, -⟩ := exists_of_opens hopens
      obtain ⟨hhash, hbang, -⟩ := hno x (by rw [hd]; rfl)
      exact hmark.elim hhash hbang
  | cons x w =>
    cases w with
    | nil =>
      refine Bool.eq_false_iff.2 fun hopens ↦ ?_
      obtain ⟨y, more, hd, -, hy⟩ := exists_of_opens hopens
      obtain ⟨-, -, hbrace, hbracket⟩ := hno y (by rw [show d.rest = y :: more from hd]; rfl)
      exact hy.elim hbrace hbracket
    | cons y w =>
      rw [opens_cons] at h
      rw [List.cons_append, List.cons_append, opens_cons]
      exact h

/-- In a text without backslashes and openers every piece is literal text, as it stands there. -/
theorem Covers.exists_literal (h : Covers c a d) (hd : d.Leads v e) (hw : c.Leads w e)
    (hslash : '\\' ∉ w) (hopens : ∀ u, u <:+ w → opens u = false)
    (hend : e.atRunEnd interpolated = true) : ∃ u, c.Leads u d ∧ a = .ofText .plainText c u := by
  cases h with
  | literal hu => exact ⟨_, hu, rfl⟩
  | escaped hu =>
    obtain rfl := eq_of_leads (hu.trans hd) hw
    exact absurd (List.mem_cons_self ..) hslash
  | embedded _ _ _ _ ho =>
    rw [hw.1, not_opens_append (hopens w (List.suffix_refl w)) hend] at ho
    contradiction

/-- A text without backslashes and openers is one piece. -/
theorem Tiles.eq_singleton (h : Tiles c ts d) (hparted : Parted ts)
    (hend : d.atRunEnd interpolated = true) (hw : c.Leads w d) (hne : w ≠ []) (hslash : '\\' ∉ w)
    (hopens : ∀ u, u <:+ w → opens u = false) : ts = [.ofText .plainText c w] := by
  cases ts with
  | nil =>
    obtain rfl : c = d := h
    exact absurd (eq_of_leads hw (.refl c)) hne
  | cons a as =>
    obtain ⟨m, hcovers, htiles⟩ := h
    obtain ⟨v, hv⟩ := htiles.exists_leads
    obtain ⟨u, hu, rfl⟩ := hcovers.exists_literal hv hw hslash hopens hend
    obtain rfl := eq_of_leads (hu.trans hv) hw
    cases as with
    | nil =>
      obtain rfl : m = d := htiles
      rw [eq_of_leads hv (.refl m), List.append_nil]
    | cons b bs =>
      -- Another piece would be literal text as well, but no byte lies between the two.
      obtain ⟨m', hb, hbs⟩ := htiles
      obtain ⟨v', hv'⟩ := hbs.exists_leads
      obtain ⟨u', -, rfl⟩ := hb.exists_literal hv' hv (fun hmem ↦ hslash (List.mem_append_right _ hmem))
        (fun x hx ↦ hopens x (hx.trans (List.suffix_append u v))) hend
      have hgap : c.offset + byteLength u + 1 = m.offset := (List.isChain_cons_cons.1 hparted).1 rfl rfl
      rw [hu.2] at hgap
      exact absurd hgap (Nat.succ_ne_self _)

/-- The pieces cover a run, and literal text among them is as long as it can be. -/
structure IsTiled (c : Cursor) (ts : List (Token E)) (d : Cursor) : Prop where
  tiles : Tiles c ts d
  parted : Parted ts
  /-- A text without backslashes and openers is one piece. -/
  whole {w : List Char} (hw : c.Leads w d) (hne : w ≠ []) (hslash : '\\' ∉ w)
    (hopens : ∀ u, u <:+ w → opens u = false) : ts = [.ofText .plainText c w]

end Whole

section Runs

open Link

variable {g : Setup σ E} {interpolated : Bool} {levels : Nat} {source : List Char}
variable {s t : ReadState σ} {a : Token E} {ts : List (Token E)} {tail : LineTail}

/-- A reading that is found to succeed. -/
theorem exists_of_reads {α : Type} {r : EStateM.Result Failure (ReadState σ) α} {p : α → Bool}
    (h : (match r with | .ok a _ => p a | .error .. => false) = true) :
    ∃ a t, r = .ok a t ∧ p a = true := by
  cases r with
  | ok a t => exact ⟨a, t, rfl, h⟩
  | error => contradiction

theorem exists_over (s : ReadState σ) : ∃ source, Over E source s := by
  unfold Over
  exact exists_states_beside s trivial

/-- The pieces that are read from a place cover the text up to the end of the run. -/
theorem pieces_isTiled (hs : Over E source s)
    (h : pieces g (Tag.inlineTag g levels) interpolated s = .ok ts t) :
    Over E source t ∧ IsTiled s.cursor ts t.cursor ∧ t.cursor.atRunEnd interpolated = true := by
  have ht : Over E source t := over_of_runsTo
    ((TextRun.pieces_rel (setups_beside g) (inlineTag_runsTo (setups_beside g) levels) s s hs).mono
      fun _ _ _ _ h ↦ h.2) h
  obtain ⟨r, m, hgather, h⟩ := bind_eq_ok.1 h
  cases h
  obtain ⟨htiles, hparted, hend, -⟩ := gather_tiles hs hgather
  exact ⟨ht, ⟨htiles, hparted, htiles.eq_singleton hparted hend⟩, hend⟩

/-- A run of text covers the text that it holds. -/
theorem run_isTiled (h : run g (Tag.inlineTag g levels) interpolated s = .ok a t) :
    ∃ w, s.cursor.Leads w t.cursor ∧
      a = (Token.ofText .linePlainText s.cursor w).withChildren a.children ∧
      IsTiled s.cursor a.children t.cursor ∧ t.cursor.atRunEnd interpolated = true := by
  obtain ⟨source, hs⟩ := exists_over (E := E) s
  obtain ⟨start, m, hhere, h⟩ := bind_eq_ok.1 h
  cases hhere
  obtain ⟨ts, m, hpieces, h⟩ := bind_eq_ok.1 h
  obtain ⟨b, m', htoken, h⟩ := bind_eq_ok.1 h
  cases h
  obtain ⟨hm, htiled, hend⟩ := pieces_isTiled hs hpieces
  obtain ⟨rfl, w, hw, rfl⟩ := leads_of_tokenFrom hs hm htoken
  exact ⟨w, hw, rfl, htiled, hend⟩

/-- A comment that goes to the page covers the text behind its mark. -/
theorem comment_isTiled {c : Cursor} (h : Line.comment g s = .ok (a, tail) t)
    (hmark : s.cursor.Leads ['/', '/'] c) (hkind : a.kind = .lineCommentHtml) :
    IsTiled c a.children t.cursor ∧ t.cursor.atRunEnd false = true := by
  obtain ⟨source, hs⟩ := exists_over (E := E) s
  obtain ⟨start, m, hhere, h⟩ := bind_eq_ok.1 h
  cases hhere
  obtain ⟨hidden, m, heat, h⟩ := bind_eq_ok.1 h
  cases hidden with
  | true =>
    obtain ⟨b, m, htoken, h⟩ := bind_eq_ok.1 h
    obtain ⟨c, m, -, h⟩ := bind_eq_ok.1 h
    obtain ⟨⟨⟩, m, -, h⟩ := bind_eq_ok.1 h
    cases h
    obtain ⟨-, rfl⟩ := Line.tokenFrom_of_ok htoken
    contradiction
  | false =>
    obtain rfl : m = s := (ensures_eat nofun fun _ _ ↦ rfl :
      (eat "//-").Ensures s (fun hidden m ↦ hidden = false → m = s) fun _ _ ↦ True).of_ok heat rfl
    obtain rfl := hmark.past_eq
    obtain ⟨⟨⟩, m', hbump, h⟩ := bind_eq_ok.1 h
    obtain rfl : m' = { m with cursor := m.cursor.past ['/', '/'] } :=
      (ensures_bump hmark rfl rfl : (bump 2).Ensures m
        (fun _ m' ↦ m' = { m with cursor := m.cursor.past ['/', '/'] }) fun _ _ ↦ True).of_ok hbump
    have hpast := hs.past hmark.1 (by simp [isBreak])
    obtain ⟨b, n, htoken, h⟩ := bind_eq_ok.1 h
    obtain ⟨rfl, -⟩ := leads_of_tokenFrom hs hpast htoken
    obtain ⟨ts, n, hpieces, h⟩ := bind_eq_ok.1 h
    cases h
    exact (pieces_isTiled hpast hpieces).2

/-- The pieces of every run of text that is read, and those of a comment that goes to the page, cover
its text but for the backslashes that escape an opener, and only such a backslash parts literal text. -/
theorem pieces_tile_text (g : Setup σ E) (s t : ReadState σ) (a : Token E) :
    (∀ levels interpolated, run g (Tag.inlineTag g levels) interpolated s = .ok a t →
      ∃ w, s.cursor.Leads w t.cursor ∧
        a = (Token.ofText .linePlainText s.cursor w).withChildren a.children ∧
        IsTiled s.cursor a.children t.cursor ∧ t.cursor.atRunEnd interpolated = true) ∧
      ∀ tail c, Line.comment g s = .ok (a, tail) t → s.cursor.Leads ['/', '/'] c →
        a.kind = .lineCommentHtml →
          IsTiled c a.children t.cursor ∧ t.cursor.atRunEnd false = true :=
  ⟨fun _ _ ↦ run_isTiled, fun _ _ ↦ comment_isTiled⟩

/-- A backslash before an opener parts the text before it from the opener. -/
theorem pieces_tile_text_escaped :
    (∃ a t, run ⟨.loose, 32, 8⟩ (Tag.inlineTag ⟨.loose, 32, 8⟩ 32) false
        ⟨⟨0, "a\\#\x7bb".toList⟩, none, ()⟩ = .ok a t ∧ a.children.length = 2 ∧
        IsTiled ⟨0, "a\\#\x7bb".toList⟩ a.children t.cursor) ∧
      ∃ a tail t, Line.comment ⟨.loose, 32, 8⟩ ⟨⟨0, "// a".toList⟩, none, ()⟩ = .ok (a, tail) t ∧
        a.kind = .lineCommentHtml ∧ IsTiled ⟨2, " a".toList⟩ a.children t.cursor := by
  constructor
  · obtain ⟨a, t, h, hlength⟩ := exists_of_reads (p := fun a ↦ a.children.length == 2)
      (r := run ⟨.loose, 32, 8⟩ (Tag.inlineTag ⟨.loose, 32, 8⟩ 32) false
        ⟨⟨0, "a\\#\x7bb".toList⟩, none, ()⟩) (by decide +kernel)
    obtain ⟨w, -, -, htiled, -⟩ := (pieces_tile_text _ _ t a).1 32 false h
    exact ⟨a, t, h, beq_iff_eq.1 hlength, htiled⟩
  · obtain ⟨⟨a, tail⟩, t, h, hkind⟩ := exists_of_reads (p := fun r ↦ r.1.kind == .lineCommentHtml)
      (r := Line.comment ⟨.loose, 32, 8⟩ ⟨⟨0, "// a".toList⟩, none, ()⟩) (by decide +kernel)
    refine ⟨a, tail, t, h, beq_iff_eq.1 hkind, ?_⟩
    exact ((pieces_tile_text _ _ t a).2 tail _ h ⟨by decide +kernel, rfl⟩ (beq_iff_eq.1 hkind)).1

end Runs

end TextRun

end Pug

import Pug.Expression.Loose
import Pug.Proofs.Lockstep.Expression
import Pug.Proofs.Print.Phrase
import Pug.Proofs.Reading.Step

/-!
# Where readers get to

To read back what was written one has to know not only what a run ensures but that it ends well, and
where. `Yields` tells it of a reader by the cursor alone: run at a place, the reader makes something
at a place, or fails in a certain way, and it leaves the unit of indentation and the expression
parser as they are. There is one rule for each step that readers are made of, so a reader is
followed step by step over the text in front of it.
-/

namespace Pug

open Text Token

namespace Reader

variable {σ E α β : Type}

/-- Run at `c`, the reader makes something at a place, as `post` says, or fails as `broken` says.
Nothing but the cursor moves. -/
def Yields (m : Reader σ α) (c : Cursor) (post : α → Cursor → Prop) (broken : Failure → Prop) :
    Prop :=
  ∀ s : ReadState σ, s.cursor = c →
    m.Ensures s (fun a t ↦ t = { s with cursor := t.cursor } ∧ post a t.cursor) fun f _ ↦ broken f

namespace Yields

variable {m : Reader σ α} {k : α → Reader σ β} {b c d e : Cursor} {w : List Char}
variable {M : α → Cursor → Prop} {post post' : β → Cursor → Prop} {broken : Failure → Prop}

theorem mono {n : Reader σ β} (h : n.Yields c post broken) (hp : ∀ a d, post a d → post' a d) :
    n.Yields c post' broken :=
  fun s hs ↦ (h s hs).mono fun a t ha ↦ ⟨ha.1, hp a t.cursor ha.2⟩

/-- A failure may be told in another way. -/
theorem blame {n : Reader σ β} {blame : Failure → Prop} (h : n.Yields c post broken)
    (hb : ∀ f, broken f → blame f) : n.Yields c post blame := by
  intro s hs
  have hn := h s hs
  unfold Ensures
  split
  · rename_i hm
    exact hn.of_ok hm
  · rename_i hm
    exact hb _ (hn.of_error hm)

/-- A reader that does not fail makes something. -/
theorem exists_ok {n : Reader σ β} (h : n.Yields c post fun _ ↦ False) {s : ReadState σ}
    (hs : s.cursor = c) :
    ∃ a t, n s = .ok a t ∧ (t.unit = s.unit ∧ t.parser = s.parser) ∧ post a t.cursor := by
  have hn := h s hs
  unfold Ensures at hn
  split at hn
  · rename_i a t hok
    exact ⟨a, t, hok, ⟨congrArg (·.unit) hn.1, congrArg (·.parser) hn.1⟩, hn.2⟩
  · exact hn.elim

theorem pure {x : β} (h : post x c) : Yields (Pure.pure x : Reader σ β) c post broken := by
  rintro s rfl
  exact ⟨rfl, h⟩

theorem failWithHelp {problem : Problem} {help : String}
    (h : broken (.error ⟨problem, b.offset, some help⟩)) :
    Yields (failWithHelp b problem help : Reader σ β) c post broken := by
  rintro s -
  exact h

theorem bind (h : m.Yields c M broken) (hk : ∀ a d, M a d → (k a).Yields d post broken) :
    (m >>= k).Yields c post broken := by
  intro s hs
  refine (h s hs).bind fun a t ha ↦ (hk a t.cursor ha.2 t rfl).mono fun b u hb ↦ ⟨?_, hb.2⟩
  rw [hb.1, ha.1]

/-- A step that makes one thing at one place. -/
theorem step {a : α} (h : m.Yields c (fun x y ↦ x = a ∧ y = d) broken)
    (hk : (k a).Yields d post broken) : (m >>= k).Yields c post broken :=
  h.bind fun _ _ hx ↦ hx.1 ▸ hx.2 ▸ hk

section Steps

variable {k : Unit → Reader σ β} {n : Nat} {word : String}

theorem here {k : Cursor → Reader σ β} (hk : (k c).Yields c post broken) :
    (Reader.here >>= k).Yields c post broken := by
  refine step (a := c) (d := c) ?_ hk
  rintro s rfl
  exact ⟨rfl, rfl, rfl⟩

theorem moveTo (hk : (k ()).Yields d post broken) :
    (Reader.moveTo d >>= k).Yields c post broken := by
  refine step (a := ()) (d := d) ?_ hk
  rintro s rfl
  exact ⟨rfl, rfl, rfl⟩

theorem skipSpacing (hk : (k ()).Yields c.skipSpacing post broken) :
    (Reader.skipSpacing >>= k).Yields c post broken := by
  refine step (a := ()) (d := c.skipSpacing) ?_ hk
  rintro s rfl
  exact ⟨rfl, rfl, rfl⟩

theorem skipLine (hk : (k ()).Yields c.lineEnd post broken) :
    (Reader.skipLine >>= k).Yields c post broken := by
  refine step (a := ()) (d := c.lineEnd) ?_ hk
  rintro s rfl
  exact ⟨rfl, rfl, rfl⟩

theorem skipSeparators (hk : (k ()).Yields c.skipSeparators post broken) :
    (Reader.skipSeparators >>= k).Yields c post broken := by
  refine step (a := ()) (d := c.skipSeparators) ?_ hk
  rintro s rfl
  exact ⟨rfl, rfl, rfl⟩

theorem bump (h : c.Leads w d) (hn : byteLength w = n) (hk : (k ()).Yields d post broken) :
    (Reader.bump n >>= k).Yields c post broken := by
  refine step (a := ()) (d := d) ?_ hk
  rintro s rfl
  obtain rfl := h.past_eq
  exact ensures_bump h hn ⟨rfl, rfl, rfl⟩

theorem eat_true {k : Bool → Reader σ β} (h : c.Leads word.toList d)
    (hk : (k true).Yields d post broken) : (eat word >>= k).Yields c post broken := by
  refine step (a := true) (d := d) ?_ hk
  rintro s rfl
  have hstarts : s.cursor.startsWith word = true :=
    List.isPrefixOf_iff_prefix.2 ⟨d.rest, h.1.symm⟩
  refine ensures_eat (fun _ ↦ ?_) fun hf ↦ ?_
  · rw [h.past_eq]
    exact ⟨rfl, rfl, rfl⟩
  · rw [hstarts] at hf
    contradiction

theorem eat_false {k : Bool → Reader σ β} (h : c.startsWith word = false)
    (hk : (k false).Yields c post broken) : (eat word >>= k).Yields c post broken := by
  refine step (a := false) (d := c) ?_ hk
  rintro s rfl
  refine ensures_eat (fun ht ↦ ?_) fun _ ↦ ⟨rfl, rfl, rfl⟩
  rw [h] at ht
  contradiction

theorem placeAt {k : Cursor → Reader σ β} (h : b.Leads w e) (hk : (k e).Yields c post broken) :
    (Reader.placeAt b e.offset >>= k).Yields c post broken := by
  refine step (a := e) (d := c) ?_ hk
  rintro s rfl
  exact ensures_placeAt h ⟨rfl, rfl, rfl⟩

theorem tokenFrom {kind : Kind} {k : Token E → Reader σ β} (h : b.Leads w c)
    (hk : (k (.ofText kind b w)).Yields c post broken) :
    (Reader.tokenFrom b kind >>= k).Yields c post broken := by
  refine step (a := .ofText kind b w) (d := c) ?_ hk
  rintro s rfl
  exact ensures_tokenFrom h ⟨rfl, rfl, rfl⟩

theorem lineFrom {payload : Token E} {k : Token E → Reader σ β} (h : b.Leads w c)
    (hk : (k ((Token.ofText .line b (trimEnd w)).withChildren [payload])).Yields c post broken) :
    (Reader.lineFrom b payload >>= k).Yields c post broken := by
  refine step (a := (Token.ofText .line b (trimEnd w)).withChildren [payload]) (d := c) ?_ hk
  rintro s rfl
  exact ensures_lineFrom h ⟨rfl, rfl, rfl⟩

/-- Only spacing is left in front of the end of the run. -/
theorem endRun {interpolated : Bool} (h : c.skipSpacing.atRunEnd interpolated = true)
    (hk : (k ()).Yields c.skipSpacing post broken) :
    (Reader.endRun interpolated >>= k).Yields c post broken := by
  refine bind (M := fun _ y ↦ y = c.skipSpacing) ?_ fun _ _ hy ↦ hy ▸ hk
  refine skipSpacing (here ?_)
  rw [if_pos h]
  exact pure rfl

end Steps

section Gather

variable {item : Reader σ (Item α β)} {rounds : Nat} {as : List α} {a : α} {x : β}
variable {post : List α × β → Cursor → Prop}

/-- The last items of a row. -/
theorem gather_last (h : item.Yields c (fun r d ↦ ∃ as x, r = .last as x ∧ post (as, x) d) broken)
    (hr : 0 < rounds) : (gather item rounds).Yields c post broken := by
  obtain ⟨n, rfl⟩ := Nat.exists_eq_succ_of_ne_zero (Nat.ne_of_gt hr)
  refine h.bind ?_
  rintro _ d ⟨as, x, rfl, hp⟩
  exact pure hp

/-- An item of a row, and those behind it. An item that moves the cursor leaves enough rounds. -/
theorem gather_one {M : α → Cursor → Prop}
    (h : item.Yields c (fun r d ↦ ∃ a, r = .one a ∧ M a d) broken)
    (hmoves : ∀ a d, M a d → d.rest.length < c.rest.length) (hr : c.rest.length < rounds)
    (hk : ∀ a d n, M a d → d.rest.length < n →
      (gather item n).Yields d (fun r e ↦ post (a :: r.1, r.2) e) broken) :
    (gather item rounds).Yields c post broken := by
  obtain ⟨n, rfl⟩ := Nat.exists_eq_succ_of_ne_zero (Nat.ne_of_gt (Nat.zero_lt_of_lt hr))
  refine h.bind ?_
  rintro _ d ⟨a, rfl, ha⟩
  have hd := hmoves a d ha
  exact (hk a d n ha (by omega)).bind fun _ _ hp ↦ pure hp

end Gather

end Yields

end Reader

open Reader Extent
open ExpressionParser (Call)

/-- The parser is the loose one, and there are more rounds than characters from here on. -/
structure Setup.Covers (g : Setup Unit Shape) (c : Cursor) : Prop where
  parser : g.parser = .loose
  rounds : c.rest.length < g.rounds

theorem Setup.Covers.leads {g : Setup Unit Shape} {c d : Cursor} {w : List Char}
    (h : g.Covers c) (hl : c.Leads w d) : g.Covers d where
  parser := h.parser
  rounds := by
    have hlength := hl.length_rest
    have := h.rounds
    omega

/-- The loose parser reads the expression that the scan finds in front. -/
theorem expression_yields {mode : Mode} {w : List Char} {g : Setup Unit Shape} {c d : Cursor}
    {problem : Problem} {broken : Failure → Prop} (hg : g.Covers c) (h : c.Leads w d)
    (hextent : extent mode (w ++ d.rest) = .upTo w) : (expression g mode problem).Yields c
      (fun e y ↦ (∃ handle, e = embed c w handle) ∧ y = d) broken := by
  rintro s rfl
  have hanswer : ExpressionParser.checkedAnswer (fun _ text ↦ some (Shape.ofText text)) mode
      s.cursor.rest = .accepted (Shape.ofText (trim w)) (byteLength w) := by
    rw [ExpressionParser.checkedAnswer, h.1, hextent]
  have hparse : g.parser.parse mode s.cursor.rest s.parser =
      (.accepted (Shape.ofText (trim w)) (byteLength w), ()) := by
    rw [hg.parser]
    exact congrArg (·, ()) hanswer
  obtain ⟨-, -, -, -, -, -, -, hne⟩ := found_of_extent hextent
  have hpos : 0 < byteLength w := Nat.pos_of_ne_zero (mt byteLength_eq_zero.1 hne)
  rw [Ensures, expression_of_taken hparse (Call.taken?_of_accepted rfl hpos h.1), h.past_eq]
  exact ⟨rfl, ⟨_, rfl⟩, rfl⟩

/-- The loose parser reads a phrase before what ends it. -/
theorem Phrase.yields {mode : Mode} (p : Phrase mode) {g : Setup Unit Shape} {c d : Cursor}
    {problem : Problem} {broken : Failure → Prop} (hg : g.Covers c)
    (h : c.Leads p.text d) (hend : EndsAt mode p.text d.rest) :
    (expression g mode problem).Yields c
      (fun e y ↦ e.text = String.ofList p.text ∧ y = d) broken := by
  refine (expression_yields hg h (p.extent_append hend)).mono ?_
  rintro _ y ⟨⟨handle, rfl⟩, hy⟩
  exact ⟨by rw [embed, p.trimmed], hy⟩

end Pug

import Pug.Grammar.Directive
import Pug.Proofs.Source.Path

/-!
# Order of spans and bytes accounted for

Spans are in order between two offsets if each starts where the one before it stops, or behind. A
byte is accounted for by a span that holds it, or because it is a *separator*: a blank or a mark
that tokens leave out, or a byte of one of the few words that no token repeats.
-/

namespace Pug

open Text

/-- The spans follow each other between two offsets, without overlap. -/
def Ordered : Nat → List Span → Nat → Prop
  | lo, [], hi => lo ≤ hi
  | lo, s :: ss, hi => lo ≤ s.start ∧ s.start ≤ s.stop ∧ Ordered s.stop ss hi

namespace Ordered

variable {lo mid hi : Nat} {ss us : List Span}

theorem le (h : Ordered lo ss hi) : lo ≤ hi := by
  induction ss generalizing lo with
  | nil => exact h
  | cons s ss ih =>
    have := ih h.2.2
    have := h.1
    have := h.2.1
    omega

theorem append (h : Ordered lo ss mid) (k : Ordered mid us hi) : Ordered lo (ss ++ us) hi := by
  induction ss generalizing lo with
  | nil =>
    cases us with
    | nil => exact Nat.le_trans h k
    | cons u us => exact ⟨Nat.le_trans h k.1, k.2⟩
  | cons s ss ih => exact ⟨h.1, h.2.1, ih h.2.2⟩

theorem start_le_stop (h : Ordered lo ss hi) : ∀ s ∈ ss, s.start ≤ s.stop := by
  induction ss generalizing lo with
  | nil => simp
  | cons s ss ih =>
    intro u hu
    rcases List.mem_cons.1 hu with rfl | hu
    · exact h.2.1
    · exact ih h.2.2 u hu

theorem lo_le_start (h : Ordered lo ss hi) : ∀ s ∈ ss, lo ≤ s.start := by
  induction ss generalizing lo with
  | nil => simp
  | cons s ss ih =>
    intro u hu
    rcases List.mem_cons.1 hu with rfl | hu
    · exact h.1
    · exact Nat.le_trans (Nat.le_trans h.1 h.2.1) (ih h.2.2 u hu)

theorem stop_le_hi (h : Ordered lo ss hi) : ∀ s ∈ ss, s.stop ≤ hi := by
  induction ss generalizing lo with
  | nil => simp
  | cons s ss ih =>
    intro u hu
    rcases List.mem_cons.1 hu with rfl | hu
    · exact h.2.2.le
    · exact ih h.2.2 u hu

/-- No two of the spans overlap, and they are in the order of the template. -/
theorem pairwise (h : Ordered lo ss hi) : ss.Pairwise (fun s u ↦ s.stop ≤ u.start) := by
  induction ss generalizing lo with
  | nil => exact .nil
  | cons s ss ih => exact .cons h.2.2.lo_le_start (ih h.2.2)

end Ordered

/-- The marks that tokens leave out. -/
def isMark (c : Char) : Bool :=
  "()[]#.,=!:|+-\"'\\".toList.contains c

theorem utf8Size_of_isMark {c : Char} (h : isMark c = true) : c.utf8Size = 1 := by
  have hall : "()[]#.,=!:|+-\"'\\".toList.all (·.utf8Size == 1) = true := by decide
  exact beq_iff_eq.1 (List.all_eq_true.1 hall c (List.contains_iff_mem.1 h))

/-- The words that tokens leave out. -/
def separatorWords : List String :=
  ["in", "mixin", "include", "doctype"]

/-- The byte at an offset belongs to a blank or a mark, or to one of the words that tokens leave
out, where that stands by itself: between spacing, line breaks, colons and the ends of the
template. -/
inductive Separates (source : List Char) (i : Nat) : Prop where
  | mark {before after : List Char} {c : Char} (split : source = before ++ c :: after)
      (mark : isBlank c = true ∨ isMark c = true)
      (start : byteLength before ≤ i) (stop : i < byteLength before + c.utf8Size)
  | word {before after : List Char} {word : String}
      (split : source = before ++ word.toList ++ after) (mem : word ∈ separatorWords)
      (apart : Keyword.endsKeyword before.reverse = true)
      (ends : Keyword.endsKeyword after = true)
      (start : byteLength before ≤ i) (stop : i < byteLength before + byteLength word.toList)

/-- Every byte between two offsets lies in one of the spans or is a separator. -/
def Accounted (source : List Char) (lo : Nat) (spans : List Span) (hi : Nat) : Prop :=
  ∀ i, lo ≤ i → i < hi → (∃ s ∈ spans, s.start ≤ i ∧ i < s.stop) ∨ Separates source i

namespace Accounted

variable {source : List Char} {lo mid hi : Nat} {ss us : List Span}

theorem append (h : Accounted source lo ss mid) (k : Accounted source mid us hi) :
    Accounted source lo (ss ++ us) hi := by
  intro i hl hh
  by_cases hm : i < mid
  · exact (h i hl hm).imp_left fun ⟨s, hs, hi⟩ ↦ ⟨s, List.mem_append_left _ hs, hi⟩
  · exact (k i (by omega) hh).imp_left fun ⟨s, hs, hi⟩ ↦ ⟨s, List.mem_append_right _ hs, hi⟩

theorem mono (h : Accounted source lo ss hi) (hs : ∀ s ∈ ss, s ∈ us) :
    Accounted source lo us hi :=
  fun i hl hh ↦ (h i hl hh).imp_left fun ⟨s, hm, hi⟩ ↦ ⟨s, hs s hm, hi⟩

theorem self (source : List Char) (lo hi : Nat) : Accounted source lo [⟨lo, hi⟩] hi :=
  fun _ hl hh ↦ .inl ⟨⟨lo, hi⟩, List.mem_singleton_self _, hl, hh⟩

theorem nil_of_le (source : List Char) (h : hi ≤ lo) : Accounted source lo [] hi := by
  intro i hl hh
  omega

end Accounted

/-- The character that the byte at an offset of a text belongs to. -/
theorem exists_char_at {cs : List Char} {i : Nat} (h : i < byteLength cs) :
    ∃ before c after, cs = before ++ c :: after ∧ byteLength before ≤ i ∧
      i < byteLength before + c.utf8Size := by
  induction cs generalizing i with
  | nil => simp at h
  | cons d cs ih =>
    by_cases hd : i < d.utf8Size
    · exact ⟨[], d, cs, rfl, Nat.zero_le _, by simpa using hd⟩
    · rw [byteLength_cons] at h
      obtain ⟨before, c, after, rfl, hs, he⟩ :=
        ih (show i - d.utf8Size < byteLength cs by omega)
      refine ⟨d :: before, c, after, rfl, ?_, ?_⟩
      · rw [byteLength_cons]
        omega
      · rw [byteLength_cons]
        omega

/-- A text of blanks and marks needs no span. -/
theorem accounted_of_marks {source w : List Char} {c d : Cursor} (hc : Place source c)
    (h : c.Leads w d) (hw : ∀ x ∈ w, isBlank x = true ∨ isMark x = true) :
    Accounted source c.offset [] d.offset := by
  intro i hl hh
  obtain ⟨before, hs, ho⟩ := hc.exists_split
  rw [h.2] at hh
  obtain ⟨v, x, u, rfl, hv, hx⟩ :=
    exists_char_at (show i - c.offset < byteLength w by omega)
  have hsplit : source = (before ++ v) ++ x :: (u ++ d.rest) := by
    rw [hs, h.1]
    simp
  refine .inr (.mark hsplit (hw x (by simp)) ?_ ?_)
  · rw [byteLength_append]
    omega
  · rw [byteLength_append]
    omega

end Pug

import Pug.Grammar.Attribute
import Pug.Proofs.Reading.Step

/-!
# Readings of attributes

An entry of an attribute list is read as a token of its name, with the value behind it; the list
is a container around its entries.
-/

namespace Pug.Attribute

open Text Token Reader
open ExpressionParser (Call)

variable {σ E : Type} {source : List Char} {s : Recorded σ E}
variable {g : Setup (σ × List (Call E)) E} {parser : ExpressionParser σ E}

/-- What is read with a name: a token of any kind may be made of it, and the cursor has passed it. -/
structure NameRead (source : List Char) (s : Recorded σ E) (found : Cursor × List Char)
    (t : Recorded σ E) : Prop where
  reading : ∀ kind : Kind, kind.isContainer = false →
    Reading source s [.ofText kind found.1 found.2] t
  length_le : t.cursor.rest.length + found.2.length ≤ s.cursor.rest.length

theorem quotedName_reads (hs : Settled source s) {quote : Char} {rest : List Char}
    (hr : s.cursor.rest = quote :: rest) (hq : isMark quote = true) :
    (quotedName quote).Ensures s (NameRead source s) (Broken source) := by
  have hl := Cursor.leads_cons hr
  have hopen : Reading source s [] { s with cursor := s.cursor.past [quote] } :=
    reading_marks hs.place hl (by simp [hq])
  have hin := hs.of_reading hopen
  unfold quotedName
  simp only [ensures_bind, ensures_here]
  have hb : byteLength [quote] = 1 := utf8Size_of_isMark hq
  refine ensures_bump hl hb ?_
  split
  · exact hin.broken hs.place _ _
  · rename_i name hn
    obtain ⟨others, ho⟩ := Name.exists_eq_append_of_quoted hn
    have hname := Cursor.leads_past ho
    have hm : Moved { s with cursor := s.cursor.past [quote] } name
        { s with cursor := (s.cursor.past [quote]).past name } := moved_to hname
    have hplace := hin.place.leads hname
    have hq' : ((s.cursor.past [quote]).past name).rest = quote :: others := by
      have := hname.1
      rw [ho] at this
      exact (List.append_cancel_left this).symm
    have hclose := Cursor.leads_cons hq'
    simp only [ensures_bind, ensures_moveTo, ensures_pure]
    refine ensures_bump hclose hb ⟨fun kind hk ↦ ?_, ?_⟩
    · exact (hopen.after (Reading.leaf hin.place hm hk)).before
        (reading_marks hplace hclose (by simp [hq]))
    · have h₁ := hl.length_rest
      have h₂ := hname.length_rest
      have h₃ := hclose.length_rest
      simp only at h₁ h₂ h₃ ⊢
      omega

theorem bareName_reads (hs : Settled source s) :
    bareName.Ensures s (NameRead source s) (Broken source) := by
  unfold bareName
  simp only [ensures_bind, ensures_here]
  split
  · exact hs.broken hs.place _ _
  · rename_i name hn
    obtain ⟨others, ho⟩ := Name.exists_eq_append_of_bare hn
    have hname := Cursor.leads_past ho
    have h := hname.length_rest
    refine ⟨fun kind hk ↦ .leaf hs.place (moved_to hname) hk, ?_⟩
    simp only
    omega

theorem anyName_reads (hs : Settled source s) :
    anyName.Ensures s (NameRead source s) (Broken source) := by
  unfold anyName
  simp only [ensures_bind, ensures_here]
  split
  · rename_i h
    obtain ⟨rest, hr⟩ := List.head?_eq_some_iff.1 h
    exact quotedName_reads hs hr rfl
  · rename_i h
    obtain ⟨rest, hr⟩ := List.head?_eq_some_iff.1 h
    exact quotedName_reads hs hr rfl
  · exact bareName_reads hs

theorem name_reads (hs : Settled source s) :
    name.Ensures s (fun found t ↦ NameRead source s found t ∧ found.2 ≠ []) (Broken source) := by
  unfold name
  simp only [ensures_bind, ensures_here]
  refine (anyName_reads hs).mono fun found t ht ↦ ensures_ite (fun _ ↦ ?_) fun he ↦ ⟨ht, ?_⟩
  · exact (hs.of_reading (ht.reading .tag rfl)).broken hs.place _ _
  · simpa using he

/-- A name with its value behind it. -/
theorem value_reads (hg : g.Records parser source) (hs : Settled source s) {m n : Recorded σ E}
    {u : Token E} (hu : Reading source s [u] m) (hk : u.kind.isContainer = false)
    (he : u.expr = none) (hc : u.children = [])
    (hn : Reading source m [] n) :
    (expression g .attributeValue .invalidAttributeValue).Ensures n
      (fun e t ↦ Reading source s [u.withExpr e] t ∧
        t.cursor.rest.length < n.cursor.rest.length) (Broken source) := by
  have hsn := (hs.of_reading hu).of_reading hn
  exact (expression_reads hg hsn _ _).mono fun e t ht ↦ ⟨hu.value hk he hc hn ht.1, ht.2⟩

theorem entry_reads (hg : g.Records parser source) (hs : Settled source s) :
    (entry g).Ensures s (TokenRead source s) (Broken source) := by
  unfold entry
  refine (name_reads hs).bind ?_
  rintro found m ⟨hm, hne⟩
  obtain ⟨place, text⟩ := found
  have hread := hm.reading
  have hsm := hs.of_reading (hread .attrPairEscaped rfl)
  have hlen : m.cursor.rest.length < s.cursor.rest.length := by
    have := hm.length_le
    have := List.length_pos_iff.2 hne
    simp only at *
    omega
  have hspace := reading_skipSpacing hsm.place
  have hsp := hspace.place hsm.place
  simp only [ensures_bind, ensures_here, ensures_skipSpacing]
  refine ensures_eat (fun h ↦ ?_) fun _ ↦ ?_
  · have hl := Cursor.leads_of_startsWith h
    have hmark := hspace.trans (reading_marks hsp hl rfl)
    simp only [↓reduceIte, ensures_bind, ensures_pure]
    refine (value_reads hg hs (hread .attrPairUnescaped rfl) rfl rfl rfl hmark).mono
      fun e t ht ↦ ⟨ht.1, ?_⟩
    have := hmark.length_rest_le
    have := ht.2
    omega
  · simp only [Bool.false_eq_true, ↓reduceIte, ensures_bind]
    refine ensures_eat (fun h ↦ ?_) fun _ ↦ ?_
    · have hl := Cursor.leads_of_startsWith h
      have hmark := hspace.trans (reading_marks hsp hl rfl)
      simp only [↓reduceIte, ensures_bind, ensures_pure]
      refine (value_reads hg hs (hread .attrPairEscaped rfl) rfl rfl rfl hmark).mono
        fun e t ht ↦ ⟨ht.1, ?_⟩
      have := hmark.length_rest_le
      have := ht.2
      omega
    · simp only [Bool.false_eq_true, ↓reduceIte, ensures_bind, ensures_moveTo]
      refine ensures_ite (fun _ ↦ ⟨hread .attrPairEscaped rfl, hlen⟩) fun _ ↦ ?_
      exact hsm.broken hsm.place _ _

theorem item_reads (hg : g.Records parser source) {start : Cursor} (hc : Place source start)
    (hs : Settled source s) :
    (item g start).Ensures s (ItemRead source (fun _ _ ↦ True) s) (Broken source) := by
  have hblank := reading_skipSeparators hs.place
  have hsb := hs.of_reading hblank
  unfold item
  simp only [ensures_bind, ensures_skipSeparators, ensures_here]
  split
  · exact hsb.broken hc _ _
  · rename_i rest hr
    have hl := Cursor.leads_cons hr
    simp only [ensures_bind, ensures_pure]
    exact ensures_bump hl rfl ⟨hblank.trans (reading_marks hsb.place hl rfl), trivial⟩
  · refine (entry_reads hg hsb).bind ?_
    rintro a m ⟨ha, hlt⟩
    have hsm := hsb.of_reading ha
    have hsep := reading_skipSeparators hsm.place
    have hread := (hblank.after ha).before hsep
    have hlt : m.cursor.rest.length < s.cursor.rest.length :=
      Nat.lt_of_lt_of_le hlt hblank.length_rest_le
    simp only [ensures_bind, ensures_skipSeparators, ensures_pure]
    refine ensures_eat (fun h ↦ ?_) fun _ ↦ ?_
    · have hl := Cursor.leads_of_startsWith h
      have hcomma := reading_marks (hsep.place hsm.place) hl rfl
      refine ⟨hread.before hcomma, ?_⟩
      exact Nat.lt_of_le_of_lt (hsep.trans hcomma).length_rest_le hlt
    · exact ⟨hread, Nat.lt_of_le_of_lt hsep.length_rest_le hlt⟩

theorem list_reads (hg : g.Records parser source) (hs : Settled source s) {rest : List Char}
    (hr : s.cursor.rest = '(' :: rest) :
    (list g).Ensures s (TokenRead source s) (Broken source) := by
  have hl := Cursor.leads_cons hr
  have hopen := reading_marks hs.place hl rfl
  unfold list
  simp only [ensures_bind, ensures_here, ensures_pure]
  refine ensures_bump hl rfl ?_
  refine (gather_rounds_reads hg (fun _ ↦ item_reads hg hs.place) (hs.of_reading hopen)).mono ?_
  rintro r t ⟨ht, _⟩
  have hread := hopen.after ht
  obtain ⟨w, hw⟩ := hread.leads
  refine ensures_tokenFrom hw ⟨?_, ?_⟩
  · exact hread.wrap (hs.place.stands hw) rfl rfl
  · have h₁ := hl.length_rest
    have h₂ := ht.length_rest_le
    simp only [List.length_singleton] at h₁ h₂
    omega

end Pug.Attribute

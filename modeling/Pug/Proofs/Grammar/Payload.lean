import Pug.Proofs.Grammar.Rules
import Pug.Proofs.Layout.Inner

/-!
# What lines say keeps the grammar

Every reader makes sound tokens. A reader of a row needs to know of its items only what kinds they
are of; the parts of a tag are put together from their end, since only the last of them may be of
another kind than the others.

A payload that asks for a line to follow *takes a line*: it stays sound when one is added under what
it says.
-/

namespace Pug

open Token Reader Outline

variable {σ E : Type} {g : Setup σ E}

namespace Token

/-- A sound token of certain kinds that may stand in a run of text. -/
structure Fits (p : Kind → Bool) (t : Token E) : Prop where
  sound : t.IsSound
  inRun : t.IsInRun
  kind : p t.kind = true

/-- The token stays sound when a line is added under what it says. -/
def TakesLine (payload : Token E) : Prop :=
  ∀ line : Token E, line.kind = .line → line.IsSound → (extendPayload payload [line]).IsSound

section

variable {p : Kind → Bool} {kind : Kind} {text : String} {span : Span}

theorem isInRun_of_children_nil {t : Token E} (hd : t.kind ≠ .tagDotBlock) (hl : t.kind ≠ .line)
    (hc : t.children = []) : t.IsInRun := by
  refine isInRun_iff.2 ⟨⟨hd, hl⟩, ?_⟩
  rw [hc]
  exact List.forall_mem_nil _

/-- A leaf fits if its kind allows no child to be there, and is none that reaches out of a run. -/
theorem fits_leaf (hp : p kind = true) (hc : kind.allows [] = true) (he : kind.embeds = false)
    (hd : kind ≠ .tagDotBlock) : (leaf kind text span : Token E).Fits p := by
  have hl : kind ≠ .line := by
    rintro rfl
    contradiction
  exact ⟨isSound_leaf hc he text span, isInRun_of_children_nil hd hl rfl, hp⟩

theorem fits_value (hp : p kind = true) (hc : kind.allows [] = true)
    (he : kind = .attrPairEscaped ∨ kind.embeds = true) (e : Embedded E) :
    ((leaf kind text span).withExpr e).Fits p := by
  have hl : kind ≠ .line := by
    rintro rfl
    contradiction
  have hd : kind ≠ .tagDotBlock := by
    rintro rfl
    rcases he with he | he <;> contradiction
  exact ⟨isSound_value hc he text span e, isInRun_of_children_nil hd hl rfl, hp⟩

end

end Token

theorem Reader.tokenFrom_eq_leaf (c : Cursor) (kind : Kind) :
    Makes (tokenFrom c kind : Reader σ (Token E)) fun t ↦ ∃ text span, t = leaf kind text span :=
  .after fun _ ↦ .after fun _ ↦ .pure ⟨_, _, rfl⟩

section Pieces

variable {inlineTag : Reader σ (Token E)} {interpolated : Bool}

theorem Attribute.entry_fits : (Attribute.entry g).Makes (Fits Kind.isAttribute) := by
  refine .after fun found ↦ .after fun behind ↦ .after fun _ ↦ .after fun eaten ↦ .ite ?_ ?_
  · exact .after fun value ↦ .pure (fits_value rfl rfl (.inr rfl) value)
  · refine .after fun eaten ↦ .ite ?_ ?_
    · exact .after fun value ↦ .pure (fits_value rfl rfl (.inl rfl) value)
    · exact .after fun _ ↦ .ite (.pure (fits_leaf rfl rfl rfl (by decide))) (.failAt _ _)

theorem Attribute.list_fits : (Attribute.list g).Makes (Fits Kind.isTagPart) := by
  refine .after fun start ↦ .after fun _ ↦ ?_
  have hitem : (Attribute.item g start).Makes
      (OfItem (Fits Kind.isAttribute) fun _ _ ↦ True) := by
    refine .after fun _ ↦ .after fun c ↦ ?_
    split
    · exact .failAt _ _
    · exact .after fun _ ↦ .pure ⟨List.forall_mem_nil _, trivial⟩
    · exact .bind entry_fits fun t ht ↦ .after fun _ ↦ .after fun _ ↦ .pure ht
  refine .bind (.gather hitem (fun _ _ _ _ ↦ trivial) _) fun r hr ↦ ?_
  refine .bind (tokenFrom_eq_leaf start .tagAttrList) fun t ht ↦ .pure ?_
  obtain ⟨text, span, rfl⟩ := ht
  refine ⟨isSound_iff.2 ⟨.of_allows ?_ (fun _ ↦ rfl) rfl rfl (by rintro ⟨⟩), ?_⟩, ?_, rfl⟩
  · change (r.1.map Token.kind).all Kind.isAttribute = true
    rw [List.all_map, List.all_eq_true]
    exact fun u hu ↦ (hr.1 u hu).kind
  · exact fun u hu ↦ (hr.1 u hu).sound
  · exact isInRun_iff.2 ⟨⟨by rintro ⟨⟩, by rintro ⟨⟩⟩, fun u hu ↦ (hr.1 u hu).inRun⟩

/-- Output is escaped or not. -/
def Token.Kind.isOutput : Kind → Bool
  | .outputEscaped | .outputUnescaped => true
  | _ => false

/-- An expression around which output stands. -/
theorem Token.fits_output {kind : Kind} (hk : kind.isOutput = true) {text : String} {span : Span}
    (e : Embedded E) : ((leaf kind text span).withExpr e).Fits Kind.isOutput := by
  have h : kind.allows [] = true ∧ kind.embeds = true := by
    cases kind <;> first | contradiction | exact ⟨rfl, rfl⟩
  exact fits_value hk h.1 (.inr h.2) e

theorem TextRun.output_fits {kind : Kind} (hk : kind.isOutput = true) :
    (TextRun.output g kind).Makes (Fits Kind.isOutput) := by
  refine .after fun start ↦ .after fun _ ↦ .after fun e ↦ .after fun eaten ↦ .ite ?_ ?_
  · refine .bind (tokenFrom_eq_leaf start kind) fun t ht ↦ .pure ?_
    obtain ⟨text, span, rfl⟩ := ht
    exact fits_output hk e
  · exact .after fun _ ↦ .failAt _ _

theorem TextRun.isOutput_of_front {cs : List Char} {kind : Kind}
    (h : Front.ofRest interpolated cs = .output kind) : kind.isOutput = true := by
  unfold Front.ofRest at h
  split at h
  · contradiction
  · split at h
    · contradiction
    · split at h
      · cases h
        rfl
      · cases h
        rfl
      · contradiction
      · split at h <;> contradiction

theorem TextRun.pieces_fit (hi : inlineTag.Makes (Fits Kind.isPiece)) :
    (TextRun.pieces g inlineTag interpolated).Makes fun ts ↦ ∀ t ∈ ts, t.Fits Kind.isPiece := by
  have hpiece : (TextRun.piece g inlineTag interpolated).Makes
      (OfItem (Fits Kind.isPiece) fun _ _ ↦ True) := by
    refine .after fun start ↦ ?_
    cases hf : Front.ofRest interpolated start.rest with
    | finished => exact .pure ⟨List.forall_mem_nil _, trivial⟩
    | output kind =>
      refine .bind (output_fits (isOutput_of_front hf)) fun t ht ↦ .pure ⟨ht.sound, ht.inRun, ?_⟩
      have hk := ht.kind
      cases h : t.kind <;> rw [h] at hk <;> first | contradiction | rfl
    | inlineTag => exact .bind hi fun t ht ↦ .pure ht
    | literal escape text =>
      refine .after fun _ ↦ .after fun c ↦ .after fun _ ↦ .pure ?_
      exact fits_leaf rfl rfl rfl (by decide)
  exact .bind (.gather hpiece (fun _ _ _ _ ↦ trivial) _) fun r hr ↦ .pure hr.1

/-- The token of a run with its pieces. -/
theorem Token.fits_run {kind : Kind} (hk : kind.holdsText = true) {text : String} {span : Span}
    {ts : List (Token E)} (hts : ∀ t ∈ ts, t.Fits Kind.isPiece) :
    ((leaf kind text span).withChildren ts).Fits Kind.holdsText := by
  have h : kind ≠ .tagDotBlock ∧ kind ≠ .line := by
    cases kind <;> first | contradiction | decide
  refine ⟨isSound_run hk rfl (fun t ht ↦ (hts t ht).kind) (fun t ht ↦ (hts t ht).sound)
    fun t ht ↦ (hts t ht).inRun, ?_, hk⟩
  exact isInRun_iff.2 ⟨h, fun t ht ↦ (hts t ht).inRun⟩

theorem TextRun.run_fits (hi : inlineTag.Makes (Fits Kind.isPiece)) :
    (TextRun.run g inlineTag interpolated).Makes
      fun t ↦ t.Fits Kind.holdsText ∧ t.kind = .linePlainText := by
  refine .after fun start ↦ .bind (pieces_fit hi) fun ts hts ↦ ?_
  refine .bind (tokenFrom_eq_leaf start .linePlainText) fun t ht ↦ .pure ?_
  obtain ⟨text, span, rfl⟩ := ht
  exact ⟨fits_run rfl hts, rfl⟩

end Pieces

namespace Tag

/-- The parts of a tag, and what may stand behind them. -/
structure PartsFit (interpolated : Bool) (ts : List (Token E)) (tail : LineTail) : Prop where
  sound : ∀ t ∈ ts, t.IsSound
  inRun : interpolated = true → ∀ t ∈ ts, t.IsInRun
  kinds : Kind.endsTag (ts.map Token.kind) = true
  text : ∀ t ∈ ts, t.kind = .linePlainText → t.children ≠ []
  follow : tail = .follow → ∀ t ∈ ts, t.kind.isTagPart = true

namespace PartsFit

variable {interpolated : Bool} {ts : List (Token E)} {tail : LineTail} {t : Token E}

theorem nil (interpolated : Bool) (tail : LineTail) :
    PartsFit interpolated ([] : List (Token E)) tail :=
  ⟨List.forall_mem_nil _, fun _ ↦ List.forall_mem_nil _, rfl, List.forall_mem_nil _,
    fun _ ↦ List.forall_mem_nil _⟩

/-- One part that ends a tag. -/
theorem last (hs : t.IsSound) (hr : interpolated = true → t.IsInRun)
    (hk : t.kind.isTagEnding = true) (htext : t.kind = .linePlainText → t.children ≠ [])
    (htail : tail ≠ .follow) : PartsFit interpolated [t] tail where
  sound := List.forall_mem_singleton.2 hs
  inRun h := List.forall_mem_singleton.2 (hr h)
  kinds := by
    have hpart : t.kind.isTagPart = false := by
      cases h : t.kind <;> rw [h] at hk <;> first | contradiction | rfl
    rw [Kind.endsTag, List.map_singleton, List.dropWhile_cons_of_neg (by rw [hpart]; decide)]
    exact hk
  text := List.forall_mem_singleton.2 htext
  follow h := absurd h htail

/-- A part that others may follow. -/
theorem cons (ht : t.Fits Kind.isTagPart) (h : PartsFit interpolated ts tail) :
    PartsFit interpolated (t :: ts) tail where
  sound := List.forall_mem_cons.2 ⟨ht.sound, h.sound⟩
  inRun hi := List.forall_mem_cons.2 ⟨ht.inRun, h.inRun hi⟩
  kinds := by
    rw [Kind.endsTag, List.map_cons, List.dropWhile_cons_of_pos ht.kind]
    exact h.kinds
  text := by
    refine List.forall_mem_cons.2 ⟨fun hk ↦ ?_, h.text⟩
    have hpart := ht.kind
    rw [hk] at hpart
    contradiction
  follow hf := List.forall_mem_cons.2 ⟨ht.kind, h.follow hf⟩

/-- A line ends parts that ask for one. -/
theorem endsTag_concat (h : PartsFit interpolated ts .follow) :
    Kind.endsTag (ts.map Token.kind ++ [.line]) = true := by
  have hall : ∀ k ∈ ts.map Token.kind, k.isTagPart = true := by
    intro k hk
    obtain ⟨t, ht, rfl⟩ := List.mem_map.1 hk
    exact h.follow rfl t ht
  rw [Kind.endsTag, List.dropWhile_append_of_pos hall]
  rfl

end PartsFit

variable {inlineTag : Reader σ (Token E)} {interpolated : Bool}

/-- What is known of a part from its form alone. -/
def Part.Known (interpolated : Bool) : Part → Prop
  | .note kind => kind = .tagClassNote ∨ kind = .tagIdNote
  | .output kind _ => kind.isOutput = true
  | .dotBlock | .follow => interpolated = false
  | _ => True

theorem known_ofRest (interpolated : Bool) (cs : List Char) :
    (Part.ofRest interpolated cs).Known interpolated := by
  unfold Part.ofRest
  repeat' split
  all_goals first | trivial | simp_all [Part.Known]

theorem closingMark_eq_leaf (kind : Kind) :
    (closingMark kind interpolated : Reader σ (Token E)).Makes
      fun t ↦ ∃ text span, t = leaf kind text span :=
  .after fun start ↦ .after fun _ ↦ .bind (tokenFrom_eq_leaf start kind) fun _ ht ↦
    .after fun _ ↦ .pure ht

theorem output_fits {kind : Kind} (hk : kind.isOutput = true) (mark : Nat) (site : Site) :
    (output g kind mark site).Makes (Fits Kind.isOutput) := by
  refine .after fun start ↦ .after fun _ ↦ .after fun e ↦ ?_
  refine .bind (tokenFrom_eq_leaf start kind) fun t ht ↦ .pure ?_
  obtain ⟨text, span, rfl⟩ := ht
  exact fits_output hk e

theorem text_fits (hi : inlineTag.Makes (Fits Kind.isPiece)) :
    (Tag.text g inlineTag interpolated).Makes fun ts ↦ PartsFit interpolated ts .plain := by
  refine .after fun _ ↦ .after fun start ↦ .ite (.after fun _ ↦ .pure (.nil _ _)) ?_
  refine .bind (TextRun.run_fits hi) fun t ht ↦ .pure ?_
  split
  · exact .nil _ _
  · rename_i hc
    refine .last ht.1.sound (fun _ ↦ ht.1.inRun) (by rw [ht.2]; rfl) (fun _ ↦ ?_) (by decide)
    exact fun h ↦ hc (List.isEmpty_iff.2 h)

theorem part_fits (hi : inlineTag.Makes (Fits Kind.isPiece)) :
    (part g inlineTag interpolated).Makes
      (Each (Fits Kind.isTagPart) (PartsFit interpolated)) := by
  refine .after fun start ↦ ?_
  have hknown := known_ofRest interpolated start.rest
  cases hp : Part.ofRest interpolated start.rest with
  | finished => exact .pure (.nil _ _)
  | note kind =>
    rw [hp] at hknown
    refine .bind (P := Fits Kind.isTagPart) ?_ fun t ht ↦ .pure ht
    refine .after fun _ ↦ .after fun c ↦ .after fun _ ↦ .pure ?_
    rcases hknown with rfl | rfl
    · exact fits_leaf rfl rfl rfl (by decide)
    · exact fits_leaf rfl rfl rfl (by decide)
  | dotBlock =>
    rw [hp] at hknown
    refine .bind (closingMark_eq_leaf .tagDotBlock) fun t ht ↦ .pure ?_
    obtain ⟨text, span, rfl⟩ := ht
    refine PartsFit.last (isSound_leaf rfl rfl _ _) (fun h ↦ ?_) rfl (by rintro ⟨⟩) (by rintro ⟨⟩)
    exact absurd (h.symm.trans hknown) (by decide)
  | attributes => exact .bind Attribute.list_fits fun t ht ↦ .pure ht
  | spread =>
    refine .bind (P := Fits Kind.isTagPart) ?_ fun t ht ↦ .pure ht
    refine .after fun start ↦ .after fun _ ↦ .after fun e ↦ .after fun _ ↦ .after fun eaten ↦
      .ite ?_ (.after fun _ ↦ .failAt _ _)
    refine .bind (tokenFrom_eq_leaf start .tagAttributes) fun t ht ↦ .pure ?_
    obtain ⟨text, span, rfl⟩ := ht
    exact fits_value rfl rfl (.inr rfl) e
  | selfClose =>
    refine .bind (closingMark_eq_leaf .tagSelfClose) fun t ht ↦ .pure ?_
    obtain ⟨text, span, rfl⟩ := ht
    have hfits : (leaf .tagSelfClose text span : Token E).Fits Kind.isTagEnding :=
      fits_leaf rfl rfl rfl (by decide)
    exact PartsFit.last hfits.sound (fun _ ↦ hfits.inRun) rfl (by rintro ⟨⟩) (by decide)
  | output kind mark =>
    rw [hp] at hknown
    refine .bind (output_fits hknown _ _) fun t ht ↦ .after fun _ ↦ .pure ?_
    have hk : t.kind.isTagEnding = true ∧ t.kind ≠ .linePlainText := by
      have hk := ht.kind
      cases h : t.kind <;> rw [h] at hk <;> first | contradiction | decide
    exact PartsFit.last ht.sound (fun _ ↦ ht.inRun) hk.1 (fun h ↦ absurd h hk.2) (by decide)
  | follow => exact .after fun _ ↦ .pure (.nil _ _)
  | text => exact .bind (text_fits hi) fun ts hts ↦ .pure hts
  | unexpected => exact .failAt _ _

theorem parts_fit (hi : inlineTag.Makes (Fits Kind.isPiece)) :
    (parts g inlineTag interpolated).Makes fun r ↦ PartsFit interpolated r.1 r.2 :=
  .gather_of (part_fits hi) (fun _ _ _ ha hs ↦ .cons ha hs) _

/-- A tag with its parts. -/
theorem isSound_tag {ts : List (Token E)} {tail : LineTail} (h : PartsFit interpolated ts tail)
    (text : String) (span : Span) : ((leaf .tag text span).withChildren ts).IsSound :=
  isSound_tagged rfl h.kinds rfl h.sound h.text

theorem wrap_makes_sound (start : Cursor) {tag : Token E} (hk : tag.kind = .tag) (h : tag.IsSound) :
    (wrap start tag : Reader σ (Token E)).Makes
      fun t ↦ t.IsSound ∧ t.kind = .lineData ∧ t.expr = none ∧ t.children = [tag] := by
  refine .bind (tokenFrom_eq_leaf start .lineData) fun t ht ↦ .pure ?_
  obtain ⟨text, span, rfl⟩ := ht
  exact ⟨isSound_wrapped rfl rfl rfl hk h, rfl, rfl, rfl⟩

theorem inlineTag_fits (levels : Nat) : (Tag.inlineTag g levels).Makes (Fits Kind.isPiece) := by
  induction levels with
  | zero => exact .after fun _ ↦ .throw _
  | succ levels ih =>
    refine .after fun start ↦ .after fun _ ↦ .after fun nameStart ↦ .after fun _ ↦ ?_
    refine .bind (parts_fit ih) fun r hr ↦ .ite (.failAt _ _) <| .after fun eaten ↦
      .ite ?_ (.after fun _ ↦ .failAt _ _)
    refine (wrap_makes_sound start rfl (isSound_tag hr _ _)).mono fun t ht ↦ ?_
    obtain ⟨hs, hk, -, hc⟩ := ht
    refine ⟨hs, isInRun_iff.2 ⟨?_, ?_⟩, by rw [hk]; rfl⟩
    · rw [hk]
      decide
    · rw [hc, List.forall_mem_singleton]
      exact isInRun_iff.2 ⟨⟨by rintro ⟨⟩, by rintro ⟨⟩⟩, hr.inRun rfl⟩

end Tag

/-- What a line says is sound, and takes a line if it asks for one. -/
structure SaysSoundly (r : Token E × LineTail) : Prop where
  sound : r.1.IsSound
  kind : r.1.kind.isPayload = true
  follow : r.2 = .follow → r.1.TakesLine

namespace SaysSoundly

variable {t : Token E} {kind : Kind} {tail : LineTail}

/-- A payload behind which nothing follows. -/
theorem last (hs : t.IsSound) (hk : t.kind.isPayload = true) (htail : tail ≠ .follow) :
    SaysSoundly (t, tail) :=
  ⟨hs, hk, fun h ↦ absurd h htail⟩

/-- A payload that is a leaf. -/
theorem leaf {text : String} {span : Span} (hk : kind.isPayload = true) (hc : kind.allows [] = true)
    (he : kind.embeds = false) (htail : tail ≠ .follow) :
    SaysSoundly ((Token.leaf kind text span : Token E), tail) :=
  last (isSound_leaf hc he text span) hk htail

end SaysSoundly

theorem Tag.line_tells (start : Cursor) (name : List Char) :
    (Tag.line g start name).Makes SaysSoundly := by
  refine .bind (parts_fit (inlineTag_fits _)) fun r hr ↦ ?_
  have htag : ((ofText .tag start name : Token E).withChildren r.1).IsSound := isSound_tag hr _ _
  refine .bind (wrap_makes_sound start rfl htag) fun t ht ↦ .pure ?_
  obtain ⟨hs, hk, he, hc⟩ := ht
  refine ⟨hs, by rw [hk]; rfl, fun hf line hline hsound ↦ ?_⟩
  have hparts : PartsFit false r.1 .follow := by
    rw [← hf]
    exact hr
  have hextend : extendPayload t [line] = { t with
      children := [extend ((ofText .tag start name).withChildren r.1) [line]] } := by
    simp only [extendPayload, hk, hc]
  rw [hextend]
  refine isSound_wrapped hk rfl he rfl ?_
  refine isSound_tagged rfl ?_ rfl ?_ ?_
  · change Kind.endsTag ((r.1 ++ [line]).map Token.kind) = true
    rw [List.map_append, List.map_singleton, hline]
    exact hparts.endsTag_concat
  · exact List.forall_mem_append.2 ⟨hr.sound, List.forall_mem_singleton.2 hsound⟩
  · refine List.forall_mem_append.2 ⟨hr.text, List.forall_mem_singleton.2 fun h ↦ ?_⟩
    rw [hline] at h
    contradiction

namespace Directive

/-- The directives that a line may follow. -/
def isFollowable : Kind → Bool
  | .controlIf | .controlUnless | .controlElseIf | .controlElse | .controlWhile | .controlCase
  | .controlWhen | .controlDefault | .controlEach | .controlEachPair | .mixinDefinition => true
  | _ => false

/-- A directive with its variables, and then with a line that follows. -/
theorem isSound_directive {t : Token E} (hk : isFollowable t.kind = true)
    (hc : t.kind.allows (t.children.map Token.kind) = true) (he : t.expr.isSome = t.kind.embeds)
    (hs : ∀ u ∈ t.children, u.IsSound) : t.IsSound := by
  have hkind : t.kind.isTagged = false ∧ t.kind.holdsText = false ∧ t.kind ≠ .line := by
    cases h : t.kind <;> rw [h] at hk <;> first | contradiction | decide
  exact isSound_iff.2 ⟨.of_allows hc (fun _ ↦ he) hkind.1 hkind.2.1 hkind.2.2, hs⟩

theorem says_directive {t : Token E} {tail : LineTail} (hk : isFollowable t.kind = true)
    (hc : ∀ ks, Kind.mayFollow ks = true → t.kind.allows (t.children.map Token.kind ++ ks) = true)
    (he : t.expr.isSome = t.kind.embeds) (hs : ∀ u ∈ t.children, u.IsSound) :
    SaysSoundly (t, tail) := by
  have hkind : t.kind.isPayload = true ∧ t.kind ≠ .lineData := by
    cases h : t.kind <;> rw [h] at hk <;> first | contradiction | decide
  refine ⟨isSound_directive hk ?_ he hs, hkind.1, fun _ line hline hsound ↦ ?_⟩
  · have := hc [] rfl
    rwa [List.append_nil] at this
  · have hextend : extendPayload t [line] = extend t [line] := by
      unfold extendPayload
      split
      · rename_i h _
        exact absurd h hkind.2
      · rfl
    rw [hextend]
    refine isSound_directive hk ?_ he ?_
    · change t.kind.allows ((t.children ++ [line]).map Token.kind) = true
      rw [List.map_append, List.map_singleton, hline]
      exact hc [.line] rfl
    · exact List.forall_mem_append.2 ⟨hs, List.forall_mem_singleton.2 hsound⟩

theorem withTail_tells {t : Token E} (hk : isFollowable t.kind = true)
    (hc : ∀ ks, Kind.mayFollow ks = true → t.kind.allows (t.children.map Token.kind ++ ks) = true)
    (he : t.expr.isSome = t.kind.embeds) (hs : ∀ u ∈ t.children, u.IsSound) :
    (do return (t, ← tail) : Reader σ (Token E × LineTail)).Makes SaysSoundly :=
  .after fun _ ↦ .pure (says_directive hk hc he hs)

/-- The kinds of conditions. -/
def isCondition : Kind → Bool
  | .controlIf | .controlUnless | .controlElseIf | .controlWhile | .controlCase
  | .controlWhen => true
  | _ => false

theorem condition_tells {kind : Kind} (hk : isCondition kind = true) (text : String) (span : Span) :
    (condition g (leaf kind text span)).Makes SaysSoundly := by
  have hkind : isFollowable kind = true ∧ kind.embeds = true ∧
      ∀ ks, kind.allows ks = Kind.mayFollow ks := by
    cases kind <;> first | contradiction | exact ⟨rfl, rfl, fun _ ↦ rfl⟩
  refine .after fun e ↦ withTail_tells hkind.1 (fun ks hks ↦ ?_) hkind.2.1.symm
    (List.forall_mem_nil _)
  exact (hkind.2.2 ks).trans hks

theorem otherwise_tells (start : Cursor) : (otherwise g start).Makes SaysSoundly := by
  refine .bind (tokenFrom_eq_leaf start .controlElse) fun word hword ↦ .after fun c ↦ ?_
  obtain ⟨text, span, rfl⟩ := hword
  dsimp only
  split
  · refine .after fun _ ↦ .bind (tokenFrom_eq_leaf start .controlElseIf) fun t ht ↦ ?_
    obtain ⟨text, span, rfl⟩ := ht
    exact condition_tells rfl text span
  · exact withTail_tells rfl (fun ks hks ↦ hks) rfl (List.forall_mem_nil _)

/-- A loop has one variable or two. -/
theorem loopVariables_make : (loopVariables : Reader σ (List (Token E))).Makes fun ts ↦
    (∀ t ∈ ts, t.IsSound) ∧
      (ts.map Token.kind = [.eachVariable] ∨ ts.map Token.kind = [.eachVariable, .eachVariable]) := by
  have hvariable : (loopVariable : Reader σ (Token E)).Makes
      fun t ↦ t.IsSound ∧ t.kind = .eachVariable := by
    refine .after fun c ↦ .ite (.failAt _ _) (.after fun _ ↦ .after fun _ ↦ .pure ⟨?_, rfl⟩)
    exact isSound_leaf rfl rfl _ _
  refine .after fun _ ↦ .bind hvariable fun first hfirst ↦ .after fun eaten ↦ .ite ?_ ?_
  · refine .after fun _ ↦ .bind hvariable fun second hsecond ↦ .pure ⟨?_, .inr ?_⟩
    · exact List.forall_mem_cons.2 ⟨hfirst.1, List.forall_mem_singleton.2 hsecond.1⟩
    · rw [List.map_cons, List.map_singleton, hfirst.2, hsecond.2]
  · refine .pure ⟨List.forall_mem_singleton.2 hfirst.1, .inl ?_⟩
    rw [List.map_singleton, hfirst.2]

theorem each_tells (start : Cursor) : (each g start).Makes SaysSoundly := by
  refine .bind (tokenFrom_eq_leaf start .controlEach) fun word hword ↦ ?_
  obtain ⟨text, span, rfl⟩ := hword
  refine .bind loopVariables_make fun names hnames ↦ .after fun c ↦ .ite ?_ (.failAt _ _)
  refine .after fun _ ↦ .after fun e ↦ ?_
  obtain ⟨hs, hone | htwo⟩ := hnames
  · have hlength : names.length = 1 := by simpa using congrArg List.length hone
    rw [if_neg (by omega)]
    refine withTail_tells rfl (fun ks hks ↦ ?_) rfl hs
    change Kind.allows .controlEach (names.map Token.kind ++ ks) = true
    rw [hone]
    exact hks
  · have hlength : names.length = 2 := by simpa using congrArg List.length htwo
    rw [if_pos hlength]
    refine withTail_tells rfl (fun ks hks ↦ ?_) rfl hs
    change Kind.allows .controlEachPair (names.map Token.kind ++ ks) = true
    rw [htwo]
    exact hks

theorem mixin_tells : (mixin g).Makes SaysSoundly :=
  .after fun _ ↦ .ite (.throw _)
    (withTail_tells rfl (fun _ hks ↦ hks) rfl (List.forall_mem_nil _))

theorem line_tells {keyword : Keyword} (hk : ∀ kind, keyword = .condition kind → isCondition kind = true)
    (start : Cursor) : (line g keyword start).Makes SaysSoundly := by
  cases keyword with
  | condition kind =>
    refine .bind (tokenFrom_eq_leaf start kind) fun t ht ↦ ?_
    obtain ⟨text, span, rfl⟩ := ht
    exact condition_tells (hk kind rfl) text span
  | otherwise => exact otherwise_tells start
  | default =>
    refine .bind (tokenFrom_eq_leaf start .controlDefault) fun t ht ↦ ?_
    obtain ⟨text, span, rfl⟩ := ht
    exact withTail_tells rfl (fun ks hks ↦ hks) rfl (List.forall_mem_nil _)
  | each => exact each_tells start
  | mixin => exact mixin_tells
  | inclusion => exact .after fun found ↦ .ite (.failAt _ _) (.pure (.leaf rfl rfl rfl (by decide)))
  | doctype => exact .after fun found ↦ .pure (.leaf rfl rfl rfl (by decide))

end Directive

theorem Keyword.isCondition_of_atFront {cs word : List Char} {keyword : Keyword}
    (h : atFront? cs = some (keyword, word)) :
    ∀ kind, keyword = .condition kind → Directive.isCondition kind = true := by
  rintro kind rfl
  have hword := (atFront_eq_some h).1
  unfold ofWord? at hword
  split at hword <;> cases hword <;> rfl

namespace Code

theorem statement_makes_sound (lineBreak : List Char) :
    (statement g lineBreak).Makes fun t ↦ t.IsSound ∧ t.kind = .codeLine := by
  refine .after fun start ↦ .after fun e ↦ .after fun _ ↦ .after fun _ ↦ .after fun c ↦ ?_
  refine .bind (tokenFrom_eq_leaf c .codeLine) fun t ht ↦ .pure ?_
  obtain ⟨text, span, rfl⟩ := ht
  exact ⟨isSound_value rfl (.inr rfl) text span e, rfl⟩

theorem item_makes_sound (lineBreak : List Char) : (item g lineBreak).Makes
    (OfItem (fun t ↦ t.IsSound ∧ t.kind = .codeLine) fun _ _ ↦ True) := by
  have hnext : (item.next g lineBreak).Makes
      (OfItem (fun t ↦ t.IsSound ∧ t.kind = .codeLine) fun _ _ ↦ True) :=
    .bind (statement_makes_sound lineBreak) fun t ht ↦ .after fun _ ↦ .pure ht
  refine .after fun c ↦ .ite hnext (.ite ?_ (.pure ⟨List.forall_mem_nil _, trivial⟩))
  exact .after fun _ ↦ hnext

theorem block_tells (level : Nat) (text : String) (span : Span) :
    (do return (← block g level (leaf .codeBlock text span), .plain) :
      Reader σ (Token E × LineTail)).Makes SaysSoundly := by
  refine .bind (P := fun t ↦ t.IsSound ∧ t.kind = .codeBlock) ?_ fun t ht ↦ .pure ?_
  · refine .after fun lineBreak ↦ ?_
    cases lineBreak with
    | none => exact .pure ⟨isSound_leaf rfl rfl text span, rfl⟩
    | some lineBreak =>
      refine .bind (.gather (item_makes_sound lineBreak) (fun _ _ _ _ ↦ trivial) _) fun r hr ↦ ?_
      refine .pure ⟨isSound_iff.2 ⟨.of_allows ?_ (fun _ ↦ rfl) rfl rfl (by rintro ⟨⟩), ?_⟩, rfl⟩
      · change (r.1.map Token.kind).all (· == .codeLine) = true
        rw [List.all_map, List.all_eq_true]
        exact fun u hu ↦ beq_iff_eq.2 (hr.1 u hu).2
      · exact fun u hu ↦ (hr.1 u hu).1
  · exact .last ht.1 (by rw [ht.2]; rfl) (by decide)

theorem line_tells (level : Nat) : (line g level).Makes SaysSoundly := by
  refine .after fun start ↦ .after fun _ ↦ .after fun behind ↦ .ite ?_ ?_
  · refine .bind (tokenFrom_eq_leaf start .codeBlock) fun t ht ↦ .after fun _ ↦ ?_
    obtain ⟨text, span, rfl⟩ := ht
    exact block_tells level text span
  · dsimp only
    split
    · rename_i keyword word hk
      refine .after fun _ ↦ Directive.line_tells ?_ _
      exact Keyword.isCondition_of_atFront (Option.filter_eq_some_iff.1 hk).1
    · refine .after fun _ ↦ .bind (statement_makes_sound []) fun t ht ↦ .pure ?_
      exact .last ht.1 (by rw [ht.2]; rfl) (by decide)

end Code

namespace Line

theorem word_tells : (word g).Makes SaysSoundly := by
  refine .after fun start ↦ ?_
  split
  · rename_i keyword name hk
    exact .after fun _ ↦ Directive.line_tells (Keyword.isCondition_of_atFront hk) _
  · exact .after fun _ ↦ Tag.line_tells _ _

/-- A comment that stays in the template, with what stands behind its mark. -/
theorem isSound_comment (c : Cursor) (body : List Char) (text : String) (span : Span) :
    ((leaf .lineComment text span : Token E).withChildren
      (if body.isEmpty then [] else [.ofText .plainText c body])).IsSound := by
  refine isSound_iff.2 ⟨.of_allows ?_ (fun _ ↦ rfl) rfl rfl (by rintro ⟨⟩), ?_⟩
  · change Kind.allows .lineComment ((if body.isEmpty then [] else _).map Token.kind) = true
    split <;> rfl
  · change ∀ u ∈ (if body.isEmpty then [] else _), IsSound (E := E) u
    split
    · exact List.forall_mem_nil _
    · exact List.forall_mem_singleton.2 (isSound_leaf rfl rfl _ _)

theorem comment_tells : (comment g).Makes SaysSoundly := by
  refine .after fun start ↦ .after fun eaten ↦ .ite ?_ ?_
  · refine .bind (tokenFrom_eq_leaf start .lineComment) fun t ht ↦ .after fun c ↦ .after fun _ ↦ ?_
    obtain ⟨text, span, rfl⟩ := ht
    exact .pure (.last (isSound_comment c _ text span) rfl (by rintro ⟨⟩))
  · refine .after fun _ ↦ .bind (tokenFrom_eq_leaf start .lineCommentHtml) fun t ht ↦ ?_
    obtain ⟨text, span, rfl⟩ := ht
    refine .bind (TextRun.pieces_fit (Tag.inlineTag_fits _)) fun ts hts ↦ .pure ?_
    exact .last (fits_run rfl hts).sound rfl (by rintro ⟨⟩)

theorem arguments_make : (arguments g).Makes fun ts ↦
    (∀ t ∈ ts, t.IsSound) ∧ (ts.map Token.kind = [] ∨ ts.map Token.kind = [.mixinArgs]) := by
  have hnone : ∀ t ∈ ([] : List (Token E)), t.IsSound := List.forall_mem_nil _
  refine .after fun eaten ↦ .ite ?_ (.pure ⟨hnone, .inl rfl⟩)
  refine .after fun _ ↦ .after fun eaten ↦ .ite (.pure ⟨hnone, .inl rfl⟩) <| .after fun e ↦ ?_
  refine .after fun _ ↦ .after fun eaten ↦ .ite (.pure ⟨?_, .inr rfl⟩) (.after fun _ ↦ .failAt _ _)
  exact List.forall_mem_singleton.2 (isSound_value rfl (.inr rfl) _ _ e)

/-- Behind the arguments of a call, if there are any, stand the parts of a tag. -/
theorem allows_call {args : List (Token E)} {ks : List Kind}
    (h : args.map Token.kind = [] ∨ args.map Token.kind = [.mixinArgs])
    (hks : Kind.endsTag ks = true) : Kind.allows .mixinCall (args.map Token.kind ++ ks) = true := by
  rcases h with h | h
  · rw [h, List.nil_append]
    cases ks with
    | nil => rfl
    | cons k ks =>
      cases k <;> first | exact hks | skip
      -- Arguments are no part of a tag.
      rw [Kind.endsTag, List.dropWhile_cons_of_neg (by decide)] at hks
      cases ks <;> contradiction
  · rw [h]
    exact hks

theorem call_tells : (call g).Makes SaysSoundly := by
  refine .after fun _ ↦ .after fun c ↦ .ite (.failAt _ _) <| .after fun _ ↦ ?_
  refine .bind arguments_make fun args hargs ↦ ?_
  refine .bind (Tag.parts_fit (Tag.inlineTag_fits _)) fun r hr ↦ .pure ?_
  have htext : ∀ u ∈ args, u.kind = .linePlainText → u.children ≠ [] := by
    intro u hu hk
    have hmem := List.mem_map_of_mem (f := Token.kind) hu
    rw [hk] at hmem
    rcases hargs.2 with h | h <;> rw [h] at hmem <;> simp at hmem
  refine ⟨isSound_tagged rfl ?_ rfl ?_ ?_, rfl, fun hf line hline hsound ↦ ?_⟩
  · change Kind.allows .mixinCall ((args ++ r.1).map Token.kind) = true
    rw [List.map_append]
    exact allows_call hargs.2 hr.kinds
  · exact List.forall_mem_append.2 ⟨hargs.1, hr.sound⟩
  · exact List.forall_mem_append.2 ⟨htext, hr.text⟩
  · have hparts : Tag.PartsFit false r.1 .follow := by
      rw [← hf]
      exact hr
    refine isSound_tagged (t := extend _ [line]) rfl ?_ rfl ?_ ?_
    · change Kind.allows .mixinCall ((args ++ r.1 ++ [line]).map Token.kind) = true
      rw [List.map_append, List.map_append, List.map_singleton, hline, List.append_assoc]
      exact allows_call hargs.2 hparts.endsTag_concat
    · refine List.forall_mem_append.2 ⟨?_, List.forall_mem_singleton.2 hsound⟩
      exact List.forall_mem_append.2 ⟨hargs.1, hr.sound⟩
    · refine List.forall_mem_append.2 ⟨List.forall_mem_append.2 ⟨htext, hr.text⟩, ?_⟩
      refine List.forall_mem_singleton.2 fun h ↦ ?_
      rw [hline] at h
      contradiction

/-- The form of a line tells the kind of its output. -/
theorem isOutput_of_form {cs : List Char} {kind : Kind} {mark : Nat}
    (h : Form.ofRest cs = .output kind mark) : kind.isOutput = true := by
  unfold Form.ofRest at h
  repeat' split at h
  all_goals cases h <;> rfl

theorem payload_tells (level : Nat) : (payload g level).Makes SaysSoundly := by
  refine .after fun start ↦ ?_
  cases hp : Form.ofRest start.rest with
  | shorthand => exact Tag.line_tells _ _
  | comment => exact comment_tells
  | word => exact word_tells
  | dot =>
    refine .bind (Tag.closingMark_eq_leaf .lineDot) fun t ht ↦ .pure ?_
    obtain ⟨text, span, rfl⟩ := ht
    exact .leaf rfl rfl rfl (by rintro ⟨⟩)
  | piped =>
    refine .after fun _ ↦ .after fun _ ↦ ?_
    refine .bind (TextRun.run_fits (Tag.inlineTag_fits _)) fun t ht ↦ .pure ?_
    exact .last ht.1.sound (by rw [ht.2]; rfl) (by decide)
  | output kind mark =>
    refine .bind (Tag.output_fits (isOutput_of_form hp) _ _) fun t ht ↦ .after fun _ ↦ .pure ?_
    refine .last ht.sound ?_ (by decide)
    have hk := ht.kind
    cases h : t.kind <;> rw [h] at hk <;> first | contradiction | rfl
  | code => exact Code.line_tells level
  | call => exact call_tells
  | raw => exact .after fun c ↦ .after fun _ ↦ .pure (.leaf rfl rfl rfl (by decide))
  | unknown => exact .failAt _ _

end Line

end Pug

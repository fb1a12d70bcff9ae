import Pug.Proofs.Print.TagLine

/-!
# A tag with a list of attributes, written and read back

The list is the only child of its tag. Its entries have the names that were meant, with the quotes
and escapes undone, and the values as they were written.
-/

namespace Pug

open Text Token Reader Extent
open ExpressionParser (loose)

namespace Attribute

variable {entries : List (Written × List Char)} {maxDepth : Nat}

/-- An entry means the name that it was written for, and has its kind and its value. -/
theorem Written.of_sketch {e : Written} {t : Token Shape} (h : t.sketch = e.sketch) :
    (t.kind, t.attributeName, t.exprText?) =
      (e.kind, String.ofList e.name.meaning, e.value.map fun v ↦ String.ofList v.phrase.text) := by
  have hkind : t.sketch.kind.isContainer = false := by
    rw [h]
    obtain ⟨name, value⟩ := e
    cases value with
    | none => rfl
    | some v =>
      change (if v.escaped then Kind.attrPairEscaped else .attrPairUnescaped).isContainer = false
      split <;> rfl
  have htext : t.text = String.ofList e.name.raw := by
    rw [text_of_sketch hkind, h]
    rfl
  rw [attributeName, htext, String.toList_ofList, e.name.unescape_raw]
  rw [sketch_eq] at h
  obtain ⟨hkind, -, hexpr, -⟩ := Sketch.mk.inj h
  rw [hkind, hexpr]

theorem map_of_sketches {ts : List (Token Shape)}
    (h : ts.map Token.sketch = entries.map fun e ↦ e.1.sketch) :
    ts.map (fun t ↦ (t.kind, t.attributeName, t.exprText?)) = entries.map fun e ↦
      (e.1.kind, String.ofList e.1.name.meaning,
        e.1.value.map fun v ↦ String.ofList v.phrase.text) := by
  induction entries generalizing ts with
  | nil =>
    obtain rfl := List.map_eq_nil_iff.1 h
    rfl
  | cons e entries ih =>
    obtain ⟨t, ts, rfl, ht, hts⟩ := List.map_eq_cons_iff.1 h
    rw [List.map_cons, List.map_cons, Written.of_sketch ht, ih hts]

/-- A list of entries that are parted one from the next is read back as it was written: the names
with their quotes and escapes undone, the values as they are. -/
theorem lex_listed (hmax : 0 < maxDepth) (hparts : Parted entries) :
    ∃ root line data tag list : Token Shape,
      lex loose maxDepth ('a' :: '(' :: (listed entries ++ [')'])) () = .ok root ∧
      root.children = [line] ∧ line.children = [data] ∧ data.children = [tag] ∧
      tag.kind = .tag ∧ tag.text = "a" ∧ tag.children = [list] ∧ list.kind = .tagAttrList ∧
      list.children.map (fun t ↦ (t.kind, t.attributeName, t.exprText?)) = entries.map fun e ↦
        (e.1.kind, String.ofList e.1.name.meaning,
          e.1.value.map fun v ↦ String.ofList v.phrase.text) := by
  have htext : Tag.Front.text ⟨.tag ['a'], [.attributes entries hparts]⟩ =
      'a' :: '(' :: (listed entries ++ [')']) := congrArg ('a' :: ·) (List.append_nil _)
  rw [← htext]
  obtain ⟨root, hlex, hroot⟩ := Tag.Front.lex_text rfl ⟨'a', _, htext, rfl⟩ hmax
  obtain ⟨line, hroot, hline⟩ := exists_child_of_sketch (congrArg Sketch.children hroot)
  obtain ⟨data, hline, hdata⟩ := exists_child_of_sketch (congrArg Sketch.children hline)
  obtain ⟨tag, hdata, htag⟩ := exists_child_of_sketch (congrArg Sketch.children hdata)
  obtain ⟨list, hchildren, hlist⟩ := exists_child_of_sketch (congrArg Sketch.children htag)
  refine ⟨root, line, data, tag, list, hlex, hroot, hline, hdata, ?_, ?_, hchildren, ?_, ?_⟩
  · exact congrArg Sketch.kind ((sketch_eq tag).symm.trans htag)
  · rw [text_of_sketch (by rw [htag]; rfl), htag]
  · exact congrArg Sketch.kind ((sketch_eq list).symm.trans hlist)
  · exact map_of_sketches (congrArg Sketch.children ((sketch_eq list).symm.trans hlist))

/-- A name in quotes, a value in which a comma stands, and names that are parted by spacing alone.
-/
theorem lex_listed_quoted : ∃ root line data tag list : Token Shape,
    lex loose 1 "a('it\\'s'=\"p, q\", (click)!=go() z)".toList () = .ok root ∧
      root.children = [line] ∧ line.children = [data] ∧ data.children = [tag] ∧
      tag.kind = .tag ∧ tag.text = "a" ∧ tag.children = [list] ∧ list.kind = .tagAttrList ∧
      list.children.map (fun t ↦ (t.kind, t.attributeName, t.exprText?)) =
        [(.attrPairEscaped, "it's", some "\"p, q\""), (.attrPairUnescaped, "(click)", some "go()"),
          (.attrPairEscaped, "z", none)] := by
  have hparts : Parted [
      (⟨.quoted '\'' "it's".toList (.inr rfl) (List.cons_ne_nil _ _) (by simp [isBreak]),
        some ⟨true, ⟨"\"p, q\"".toList, rfl, by cbv⟩, by simp⟩⟩, ", ".toList),
      (⟨.bare "(click)".toList (List.cons_ne_nil _ _) (by cbv),
        some ⟨false, ⟨"go()".toList, rfl, by cbv⟩, by simp⟩⟩, [' ']),
      (⟨.bare ['z'] (List.cons_ne_nil _ _) (by cbv), none⟩, [])] := by
    refine .cons_cons (.inl ⟨',', [' '], rfl, .inl rfl, List.forall_mem_singleton.2 rfl⟩)
      (.cons_cons (.inr ⟨List.cons_ne_nil _ _, List.forall_mem_singleton.2 rfl, ?_⟩) (.singleton _))
    rintro v ⟨⟩
    refine ⟨?_, by simp [wordOperators, isWordChar], ?_,
      by simp [WrittenName.text, wordOperators, isWordChar]⟩
    · rintro _ ⟨⟩
      rfl
    · rintro _ ⟨⟩
      rfl
  obtain ⟨root, line, data, tag, list, hlex, hroot, hline, hdata, hkind, htext, htag, hlist,
    hentries⟩ := lex_listed Nat.one_pos hparts
  refine ⟨root, line, data, tag, list, ?_, hroot, hline, hdata, hkind, htext, htag, hlist, ?_⟩
  · rw [← hlex]
    simp [listed, Written.text, WrittenName.text, escape, WrittenValue.mark]
  · rw [hentries]
    simp [Written.kind, WrittenName.meaning]

end Attribute

end Pug

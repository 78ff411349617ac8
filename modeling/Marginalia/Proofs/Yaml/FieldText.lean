import Marginalia.Proofs.Yaml.Field
import Marginalia.Proofs.Yaml.KeyInPlace
import Marginalia.Proofs.Yaml.Located

/-!
# The text after a field edit

A field that is located can always be set.  Setting it replaces one line of the
text and leaves every line at its place in the outline, so afterwards each path
leads to the line to which it led before, and a field on another line is cut at
the same seams.  Two fields on different lines can therefore be set in either
order.
-/

namespace Marginalia

namespace Yaml

namespace KeyLine

/-- Whether a line has a key, and how it is cut, is a matter of its content. -/
theorem ofLine?_congr {l l' : Line} (h : l.content = l'.content) :
    ofLine? (.ofLine l) = ofLine? (.ofLine l') := by
  simp only [ofLine?, OutlineLine.ofLine, h]

theorem gapText_ne_nil (k : KeyLine) : k.gapText ≠ [] := by
  unfold gapText
  split
  · simp
  · next h => simpa using h

theorem isWhite_gapText_cut {head rest : Text} :
    ∀ c ∈ (cut head rest).gapText, CharClass.isWhite c = true := by
  unfold gapText
  split
  · simp
    decide
  · intro c hc
    exact List.mem_takeWhile_imp hc

theorem withValue_eq (k : KeyLine) (word : Text) :
    k.withValue word = k.head ++ (k.gapText ++ word ++ k.comment) := by
  simp only [withValue, gapText, List.append_assoc]

end KeyLine

namespace Patch

/-- The text with the field at `path` of a module set to a value. -/
def setField (t module path : Text) (value : Scalar) : Except Miss Text :=
  (setScalar t module path value).map (·.apply t)

/-- The path of a field leads to line `i`, which is cut at its seams. -/
structure FieldAt (t module path : Text) (i : Nat) (l : Line) (k : KeyLine) : Prop where
  located : ∃ range, (Outline.ofText t).locate module path = .ok (range, i)
  line : t.lines[i]? = some l
  key : KeyLine.ofLine? (.ofLine l) = some k

/-- The text `u` is the text `t` with another content on line `i`, which
locating does not tell from the old one. -/
structure Rewritten (t u : Text) (i : Nat) (content : Text) (terminator : Terminator) : Prop where
  parts : u.lines.map Line.parts = (t.lines.map Line.parts).set i (content, terminator)
  shapes : (Outline.ofText u).map OutlineLine.shape = (Outline.ofText t).map OutlineLine.shape

/-- What is written in the place of the value of a field. -/
def wordFor (k : KeyLine) (value : Scalar) : Text :=
  value.render (Quote.ofText k.value)

variable {t u module path : Text} {i : Nat} {l : Line} {k : KeyLine}

theorem FieldAt.of_keyLine {l : OutlineLine}
    (hlocated : ∃ range, (Outline.ofText t).locate module path = .ok (range, i))
    (hkey : keyLine (Outline.ofText t) i module path = .ok (l, k)) :
    FieldAt t module path i l.line k := by
  obtain ⟨hline, hk⟩ := keyLine_eq_ok_iff.mp hkey
  obtain ⟨hl, hof⟩ := Outline.getElem?_ofText hline
  exact ⟨hlocated, hl, by rwa [← hof]⟩

theorem exists_fieldAt {range : LineRange}
    (h : (Outline.ofText t).locate module path = .ok (range, i)) :
    ∃ l k, FieldAt t module path i l k := by
  obtain ⟨l, k, hkey⟩ := exists_keyLine_of_locate h
  exact ⟨l.line, k, .of_keyLine ⟨range, h⟩ hkey⟩

namespace FieldAt

variable (h : FieldAt t module path i l k)

include h

/-- A line with a key, cut behind its colon; whatever follows the colon, as long
as it starts with white space, the line is cut there. -/
theorem exists_cut : ∃ front rest, l.content = front ++ ':' :: rest ∧
    LineKind.closesKey rest = true ∧ k = KeyLine.cut (front ++ [':']) rest ∧
    ∀ (l' : Line) (rest' : Text), l'.content = front ++ ':' :: rest' →
      LineKind.closesKey rest' = true →
        (OutlineLine.ofLine l').shape = (OutlineLine.ofLine l).shape ∧
        KeyLine.ofLine? (.ofLine l') = some (KeyLine.cut (front ++ [':']) rest') := by
  obtain ⟨name, colon, hkind⟩ := KeyLine.exists_kind_eq_key h.key
  obtain ⟨front, rest, hcontent, hcloses, rfl, hsame⟩ := OutlineLine.exists_of_kind_eq_key hkind
  have hcut := KeyLine.ofLine?_eq_cut hcontent hkind
  refine ⟨front, rest, hcontent, hcloses, Option.some.inj (h.key.symm.trans hcut), ?_⟩
  intro l' rest' hl' hcloses'
  obtain ⟨hindent, hkind'⟩ := hsame l' rest' hl' hcloses'
  exact ⟨Prod.ext hindent (hkind'.trans hkind.symm), KeyLine.ofLine?_eq_cut hl' hkind'⟩

/-- A field that is located can be set, and its line is all that changes. -/
theorem exists_setField (value : Scalar) : ∃ u, setField t module path value = .ok u ∧
    Rewritten t u i (k.withValue (wordFor k value)) l.terminator := by
  obtain ⟨range, hlocate⟩ := h.located
  have hline : (Outline.ofText t)[i]? = some (.ofLine l) := by
    rw [Outline.ofText, List.getElem?_map, h.line]
    rfl
  have hset := setScalar_eq_ok hlocate (keyLine_eq_ok_iff.mpr ⟨hline, h.key⟩) value
  obtain ⟨name, colon, hkind⟩ := KeyLine.exists_kind_eq_key h.key
  obtain ⟨front, rest, hcontent, -, rfl, -⟩ := OutlineLine.exists_of_kind_eq_key hkind
  have hadmits := KeyLine.admits_withValue (List.mem_of_getElem? h.line) hcontent hkind h.key
    (Quote.ofText k.value) value
  refine ⟨_, by rw [setField, hset]; rfl, ?_, ?_⟩
  · exact Edit.map_parts_lines_apply h.line hadmits
  · exact map_shape_ofText_of_setScalar hset

/-- Afterwards the line of the field has the written value. -/
theorem exists_line_setField (value : Scalar) : ∃ u l', setField t module path value = .ok u ∧
    u.lines[i]? = some l' ∧ l'.content = k.withValue (wordFor k value) := by
  obtain ⟨u, hu, hrewritten⟩ := h.exists_setField value
  have hi : i < t.lines.length := (List.getElem?_eq_some_iff.mp h.line).1
  obtain ⟨l', hl', hcontent, -⟩ := Text.exists_line_of_set hrewritten.parts hi
  exact ⟨u, l', hu, hl', hcontent⟩

theorem isWhite_gapText : ∀ c ∈ k.gapText, CharClass.isWhite c = true := by
  obtain ⟨front, rest, -, -, rfl, -⟩ := h.exists_cut
  exact KeyLine.isWhite_gapText_cut

/-- A field with another value is located where it was, and its line is cut
anew. -/
theorem of_rewritten_self {word : Text}
    (hu : Rewritten t u i (k.withValue word) l.terminator) :
    ∃ l', l'.parts = (k.withValue word, l.terminator) ∧
      FieldAt u module path i l' (KeyLine.cut k.head (k.gapText ++ word ++ k.comment)) := by
  have hi : i < t.lines.length := (List.getElem?_eq_some_iff.mp h.line).1
  obtain ⟨l', hl', hcontent, hterminator⟩ := Text.exists_line_of_set hu.parts hi
  obtain ⟨range, hlocate⟩ := h.located
  refine ⟨l', Prod.ext hcontent hterminator, ⟨range, ?_⟩, hl', ?_⟩
  · rw [Outline.locate_congr hu.shapes, hlocate]
  · have hwhite := h.isWhite_gapText
    obtain ⟨front, rest, -, -, rfl, hread⟩ := h.exists_cut
    generalize hk : KeyLine.cut (front ++ [':']) rest = k at *
    have hhead : k.head = front ++ [':'] := by rw [← hk]; rfl
    obtain ⟨c, r, hcons⟩ := List.exists_cons_of_ne_nil k.gapText_ne_nil
    have hcloses : LineKind.closesKey (k.gapText ++ word ++ k.comment) = true := by
      rw [hcons]
      exact hwhite c (by simp [hcons])
    rw [hhead]
    refine (hread l' _ ?_ hcloses).2
    rw [hcontent, KeyLine.withValue_eq, hhead, List.append_assoc, List.singleton_append]

/-- Another line leaves a field where it is. -/
theorem of_rewritten {j : Nat} {content : Text} {terminator : Terminator}
    (hu : Rewritten t u j content terminator) (hij : i ≠ j) :
    ∃ l', l'.parts = l.parts ∧ FieldAt u module path i l' k := by
  have hparts := Text.parts_of_set_of_ne hu.parts hij
  rw [h.line, Option.map_some, Option.map_eq_some_iff] at hparts
  obtain ⟨l', hl', hparts⟩ := hparts
  obtain ⟨range, hlocate⟩ := h.located
  refine ⟨l', hparts, ⟨range, ?_⟩, hl', ?_⟩
  · rw [Outline.locate_congr hu.shapes, hlocate]
  · rw [KeyLine.ofLine?_congr (congrArg Prod.fst hparts), h.key]

/-- A field edit leaves the text as it is when it leaves the line of the
field. -/
theorem setField_eq_self_iff {value : Scalar} :
    setField t module path value = .ok t ↔ k.withValue (wordFor k value) = l.content := by
  obtain ⟨u, hu, hrewritten⟩ := h.exists_setField value
  have hline : (t.lines.map Line.parts)[i]? = some (l.content, l.terminator) := by
    rw [List.getElem?_map, h.line]
    rfl
  obtain ⟨hi, hget⟩ := List.getElem?_eq_some_iff.mp hline
  rw [hu]
  constructor
  · intro hsame
    obtain rfl := Except.ok.inj hsame
    have hset := congrArg (fun ps : List (Text × Terminator) => ps[i]?) hrewritten.parts
    simp only [hline, List.getElem?_set_self hi] at hset
    exact (congrArg Prod.fst (Option.some.inj hset)).symm
  · intro hsame
    have hparts : u.lines.map Line.parts = t.lines.map Line.parts := by
      rw [hrewritten.parts, hsame, ← hget, List.set_getElem_self]
    rw [Text.eq_of_map_parts_eq hparts]

end FieldAt

theorem exists_of_setField_eq_ok {value : Scalar} (h : setField t module path value = .ok u) :
    ∃ i l k, FieldAt t module path i l k ∧
      Rewritten t u i (k.withValue (wordFor k value)) l.terminator := by
  cases hset : setScalar t module path value with
  | error miss =>
      rw [setField, hset] at h
      cases h
  | ok e =>
      obtain ⟨range, i, -, -, hlocate, -⟩ := exists_of_setScalar_eq_ok hset
      obtain ⟨l, k, hfield⟩ := exists_fieldAt hlocate
      obtain ⟨u', hu', hrewritten⟩ := hfield.exists_setField value
      obtain rfl := Except.ok.inj (hu'.symm.trans h)
      exact ⟨i, l, k, hfield, hrewritten⟩

/-- A field on one line and then a field on another line: both lines are as they
were written. -/
theorem FieldAt.exists_setField_setField {module' path' : Text} {j : Nat} {l' : Line} {k' : KeyLine}
    (h : FieldAt t module path i l k) (h' : FieldAt t module' path' j l' k') (hij : i ≠ j)
    (v w : Scalar) :
    ∃ u, (setField t module path v >>= fun s => setField s module' path' w) = .ok u ∧
      u.lines.map Line.parts =
        ((t.lines.map Line.parts).set i (k.withValue (wordFor k v), l.terminator)).set j
          (k'.withValue (wordFor k' w), l'.terminator) := by
  obtain ⟨s, hs, hrewritten⟩ := h.exists_setField v
  obtain ⟨m, hm, hfield⟩ := h'.of_rewritten hrewritten hij.symm
  obtain ⟨u, hu, hrewritten'⟩ := hfield.exists_setField w
  have hterminator : m.terminator = l'.terminator := congrArg Prod.snd hm
  refine ⟨u, bind_eq_ok_iff.mpr ⟨s, hs, hu⟩, ?_⟩
  rw [hrewritten'.parts, hrewritten.parts, hterminator]

/-- Two fields on different lines can be set in either order: both orders
succeed, with one text. -/
theorem setField_comm {module' path' : Text} {range range' : LineRange} {j : Nat}
    (hi : (Outline.ofText t).locate module path = .ok (range, i))
    (hj : (Outline.ofText t).locate module' path' = .ok (range', j)) (hij : i ≠ j)
    (v w : Scalar) :
    ∃ u, (setField t module path v >>= fun s => setField s module' path' w) = .ok u ∧
      (setField t module' path' w >>= fun s => setField s module path v) = .ok u := by
  obtain ⟨l, k, hfield⟩ := exists_fieldAt hi
  obtain ⟨l', k', hfield'⟩ := exists_fieldAt hj
  obtain ⟨u, hu, hparts⟩ := hfield.exists_setField_setField hfield' hij v w
  obtain ⟨u', hu', hparts'⟩ := hfield'.exists_setField_setField hfield hij.symm w v
  have hsame : u' = u := by
    apply Text.eq_of_map_parts_eq
    rw [hparts, hparts', List.set_comm _ _ hij]
  exact ⟨u, hu, hsame ▸ hu'⟩

/-- A quoted title with a comment, and a key without a value in another
module. -/
theorem setField_comm_title_and_limit :
    (setField "a:\r\n  t: 'x' # n\r\nb:\n  n:".toList "a".toList "t".toList (.str "y".toList) >>=
      fun s => setField s "b".toList "n".toList (.int 7)) =
        .ok "a:\r\n  t: 'y' # n\r\nb:\n  n: 7".toList ∧
    (setField "a:\r\n  t: 'x' # n\r\nb:\n  n:".toList "b".toList "n".toList (.int 7) >>=
      fun s => setField s "a".toList "t".toList (.str "y".toList)) =
        .ok "a:\r\n  t: 'y' # n\r\nb:\n  n: 7".toList := by
  have hi : (Outline.ofText "a:\r\n  t: 'x' # n\r\nb:\n  n:".toList).locate "a".toList "t".toList =
      .ok (⟨0, 2⟩, 1) := by
    decide
  have hj : (Outline.ofText "a:\r\n  t: 'x' # n\r\nb:\n  n:".toList).locate "b".toList "n".toList =
      .ok (⟨2, 4⟩, 3) := by
    decide
  obtain ⟨u, hu, hu'⟩ := setField_comm hi hj (by decide) (.str "y".toList) (.int 7)
  have hfirst : (setField "a:\r\n  t: 'x' # n\r\nb:\n  n:".toList "a".toList "t".toList
      (.str "y".toList) >>= fun s => setField s "b".toList "n".toList (.int 7)) =
        .ok "a:\r\n  t: 'y' # n\r\nb:\n  n: 7".toList := by
    decide
  obtain rfl := Except.ok.inj (hu.symm.trans hfirst)
  exact ⟨hu, hu'⟩

end Patch

end Yaml

end Marginalia

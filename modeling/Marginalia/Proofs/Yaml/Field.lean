import Marginalia.Proofs.Yaml.KeyLine
import Marginalia.Proofs.Yaml.Patch
import Mathlib.Data.List.Forall2

/-!
# A field edit changes one line and no structure

Locating reads of every line its indentation and its kind and nothing else.  A
field edit keeps both on the line that it rewrites and does not touch another
line, so after it every path leads where it led before.
-/

namespace Marginalia.Yaml

namespace OutlineLine

/-- What locating reads of a line. -/
def shape (l : OutlineLine) : Nat × LineKind :=
  (l.indent, l.kind)

/-- Two lines that locating does not tell apart. -/
def SameShape (l l' : OutlineLine) : Prop :=
  l.shape = l'.shape

theorem shape_comp_ofLine : shape ∘ ofLine =
    (fun p : Text × Terminator => (ofLine ⟨0, 0, p.1, p.2⟩).shape) ∘ Line.parts :=
  rfl

variable {l l' : OutlineLine}

theorem SameShape.indent_eq (h : SameShape l l') : l.indent = l'.indent :=
  congrArg Prod.fst h

theorem SameShape.kind_eq (h : SameShape l l') : l.kind = l'.kind :=
  congrArg Prod.snd h

theorem SameShape.isContent_eq (h : SameShape l l') : l.isContent = l'.isContent := by
  rw [isContent, isContent, h.kind_eq]

theorem SameShape.key?_eq (h : SameShape l l') : l.key? = l'.key? := by
  rw [key?, key?, h.kind_eq]

theorem SameShape.opensModule_eq (h : SameShape l l') : l.opensModule = l'.opensModule := by
  rw [opensModule, opensModule, h.indent_eq, h.key?_eq]

end OutlineLine

namespace Outline

open OutlineLine (SameShape)

/-! ## What locating reads -/

variable {o o' : Outline}

theorem toNextModule_congr (h : List.Forall₂ SameShape o o') :
    toNextModule o = toNextModule o' := by
  induction h with
  | nil => rfl
  | cons hl _ ih =>
      simp only [toNextModule] at ih ⊢
      rw [List.takeWhile_cons, List.takeWhile_cons, hl.opensModule_eq]
      split
      · rw [List.length_cons, List.length_cons, ih]
      · rfl

theorem moduleFrom?_congr (h : List.Forall₂ SameShape o o') (name : Text) (index : Nat) :
    moduleFrom? name index o = moduleFrom? name index o' := by
  induction h generalizing index with
  | nil => rfl
  | cons hl hls ih =>
      rw [moduleFrom?, moduleFrom?, hl.opensModule_eq, hl.key?_eq, toNextModule_congr hls, ih]

theorem openingsFrom_congr (h : List.Forall₂ SameShape o o') (index : Nat) :
    openingsFrom index o = openingsFrom index o' := by
  induction h generalizing index with
  | nil => rfl
  | cons hl _ ih => rw [openingsFrom, openingsFrom, hl.opensModule_eq, hl.key?_eq, ih]

theorem walk_congr (h : List.Forall₂ SameShape o o') (index : Nat) (w : Walk) (segment : Text)
    (deeper : List Text) : walk index w segment deeper o = walk index w segment deeper o' := by
  induction h generalizing index w segment deeper with
  | nil => rfl
  | cons hl _ ih =>
      simp only [walk, hl.isContent_eq, hl.indent_eq, hl.key?_eq, ih]

theorem getElem?_congr (h : List.Forall₂ SameShape o o') (k : Nat) :
    (o[k]? = none ∧ o'[k]? = none) ∨
      ∃ l l', o[k]? = some l ∧ o'[k]? = some l' ∧ SameShape l l' := by
  induction h generalizing k with
  | nil => exact Or.inl ⟨rfl, rfl⟩
  | cons hl _ ih =>
      cases k with
      | zero => exact Or.inr ⟨_, _, rfl, rfl, hl⟩
      | succ k => exact ih k

theorem findPath_congr (h : List.Forall₂ SameShape o o') (range : LineRange) (path : List Text) :
    o.findPath range path = o'.findPath range path := by
  cases path with
  | nil => rfl
  | cons segment deeper =>
      have hinner := List.forall₂_drop (range.start + 1) (List.forall₂_take range.stop h)
      rcases getElem?_congr h range.start with ⟨hnone, hnone'⟩ | ⟨l, l', hl, hl', hsame⟩
      · simp only [findPath, hnone, hnone', walk_congr hinner]
      · simp only [findPath, hl, hl', Option.map_some, Option.bind_some, Option.getD_some,
          hsame.indent_eq, hsame.key?_eq, walk_congr hinner]

theorem forall₂_sameShape (h : o.map OutlineLine.shape = o'.map OutlineLine.shape) :
    List.Forall₂ SameShape o o' := by
  rw [← List.forall₂_eq_eq_eq, List.forall₂_map_left_iff, List.forall₂_map_right_iff] at h
  exact h

theorem modules_congr (h : o.map OutlineLine.shape = o'.map OutlineLine.shape) :
    o.modules = o'.modules := by
  have hlines := forall₂_sameShape h
  rw [modules, modules, openingsFrom_congr hlines, hlines.length_eq]

theorem locate_congr (h : o.map OutlineLine.shape = o'.map OutlineLine.shape)
    (name dotted : Text) : o.locate name dotted = o'.locate name dotted := by
  have hlines := forall₂_sameShape h
  rw [locate, locate, module, module, moduleFrom?_congr hlines]
  simp only [findPath_congr hlines]

end Outline

/-! ## The edit -/

/-- What giving the key of line `i` the value `written` does to a text: the
other lines stay byte for byte, line `i` changes between its colon and its
comment, and no line changes its shape. -/
structure ValueReplaced (t u : Text) (i : Nat) (written : Text) : Prop where
  length_lines : u.lines.length = t.lines.length
  raw_of_ne : ∀ j, j ≠ i → (u.lines[j]?).map Line.raw = (t.lines[j]?).map Line.raw
  line : ∃ l l' name front rest gap, t.lines[i]? = some l ∧ u.lines[i]? = some l' ∧
    (OutlineLine.ofLine l).kind = .key name (Text.size front) ∧
    l.content = front ++ ':' :: rest ∧
    l'.content = front ++ ':' :: (gap ++ written ++ (Scalar.splitComment rest).2) ∧
    l'.terminator = l.terminator
  shapes : (Outline.ofText u).map OutlineLine.shape = (Outline.ofText t).map OutlineLine.shape
  locate : ∀ module path, (Outline.ofText u).locate module path =
    (Outline.ofText t).locate module path

/-- A line in the place of one with the same shape leaves the shapes of an
outline. -/
theorem map_shape_ofText_of_set {t u content : Text} {i : Nat} {l : Line} {terminator : Terminator}
    (hu : u.lines.map Line.parts = (t.lines.map Line.parts).set i (content, terminator))
    (hl : t.lines[i]? = some l)
    (hsame : ∀ l' : Line, l'.content = content →
      (OutlineLine.ofLine l').shape = (OutlineLine.ofLine l).shape) :
    (Outline.ofText u).map OutlineLine.shape = (Outline.ofText t).map OutlineLine.shape := by
  rw [Outline.ofText, Outline.ofText, List.map_map, List.map_map]
  apply List.ext_getElem?
  intro j
  rw [List.getElem?_map, List.getElem?_map]
  by_cases hj : j = i
  · subst j
    have hi : i < t.lines.length := (List.getElem?_eq_some_iff.mp hl).1
    obtain ⟨l', hl', hcontent, -⟩ := Text.exists_line_of_set hu hi
    rw [hl, hl', Option.map_some, Option.map_some]
    exact congrArg some (hsame l' hcontent)
  · rw [OutlineLine.shape_comp_ofLine, ← Option.map_map, ← Option.map_map,
      Text.parts_of_set_of_ne hu hj]

namespace Patch

theorem applyAll?_contentSpan {t : Text} {k : Nat} {l : Line} (h : t.lines[k]? = some l)
    (content : Text) :
    Edit.applyAll? [⟨l.contentSpan, content⟩] t =
      some ((⟨l.contentSpan, content⟩ : Edit).apply t) := by
  have hzero := Edit.isBoundary_zero t
  have hstart : t.isBoundary l.contentSpan.start = true := by
    have hoffset : l.contentSpan.start = t.lineOffset k := Text.start_eq_lineOffset h
    rw [hoffset]
    exact Text.isBoundary_lineOffset t k
  have hstop := Text.isBoundary_contentSpan_stop h
  simp [Edit.applyAll?, Edit.applyAll, Edit.sortByStart, Edit.insertByStart, Edit.fitsSorted,
    Edit.applySorted, Edit.apply, Text.slice, hzero, hstart, hstop]

/-- A field edit leaves the shape of every line. -/
theorem map_shape_ofText_of_setScalar {t module path : Text} {value : Scalar} {e : Edit}
    (h : setScalar t module path value = .ok e) :
    (Outline.ofText (e.apply t)).map OutlineLine.shape =
      (Outline.ofText t).map OutlineLine.shape := by
  obtain ⟨range, i, o, k, -, hkey, rfl⟩ := exists_of_setScalar_eq_ok h
  obtain ⟨ho, hk⟩ := keyLine_eq_ok_iff.mp hkey
  obtain ⟨hline, hof⟩ := Outline.getElem?_ofText ho
  obtain ⟨name, colon, hkind⟩ := KeyLine.exists_kind_eq_key hk
  have hkind' := hkind
  rw [hof] at hkind'
  obtain ⟨front, rest, hcontent, -, rfl, hsame⟩ := OutlineLine.exists_of_kind_eq_key hkind'
  have hadmits := KeyLine.admits_withValue (List.mem_of_getElem? hline) hcontent hkind hk
    (Quote.ofText k.value) value
  obtain ⟨-, gap, hgap, hwhite, -, hwith⟩ := KeyLine.withValue_of_content hcontent hkind hk
  apply map_shape_ofText_of_set (Edit.map_parts_lines_apply hline hadmits) hline
  intro m hm
  rw [hwith, List.append_assoc] at hm
  obtain ⟨c, r, rfl⟩ := List.exists_cons_of_ne_nil hgap
  obtain ⟨hindent, hkey⟩ := hsame m _ hm (hwhite c (by simp))
  exact Prod.ext hindent (hkey.trans hkind'.symm)

/-- A field edit can be applied, and it replaces the value on the line of its
path. -/
theorem valueReplaced_of_setScalar {t module path : Text} {value : Scalar} {e : Edit}
    (h : setScalar t module path value = .ok e) :
    ∃ range i quote, (Outline.ofText t).locate module path = .ok (range, i) ∧
      Edit.applyAll? [e] t = some (e.apply t) ∧
      ValueReplaced t (e.apply t) i (value.render quote) := by
  obtain ⟨range, i, o, k, hlocate, hkey, rfl⟩ := exists_of_setScalar_eq_ok h
  obtain ⟨ho, hk⟩ := keyLine_eq_ok_iff.mp hkey
  obtain ⟨hline, hof⟩ := Outline.getElem?_ofText ho
  have hmem := List.mem_of_getElem? hline
  obtain ⟨name, colon, hkind⟩ : ∃ name colon, o.kind = .key name colon := by
    unfold KeyLine.ofLine? at hk
    split at hk
    · next name colon hkind => exact ⟨name, colon, hkind⟩
    · cases hk
  have hkind' := hkind
  rw [hof] at hkind'
  obtain ⟨front, rest, hcontent, -, rfl, hsame⟩ := OutlineLine.exists_of_kind_eq_key hkind'
  have hadmits := KeyLine.admits_withValue hmem hcontent hkind hk (Quote.ofText k.value) value
  obtain ⟨hcomment, gap, hgap, hwhite, -, hwith⟩ :=
    KeyLine.withValue_of_content hcontent hkind hk
  have hcloses : ∀ tail, LineKind.closesKey (gap ++ tail) = true := by
    intro tail
    cases gap with
    | nil => exact absurd rfl hgap
    | cons c gap => exact hwhite c (by simp)
  have hparts := Edit.map_parts_lines_apply hline hadmits
  have hi : i < t.lines.length := (List.getElem?_eq_some_iff.mp hline).1
  obtain ⟨l', hl', hcontent', hterminator⟩ := Text.exists_line_of_set hparts hi
  have hshapes := map_shape_ofText_of_set hparts hline fun m hm => by
    rw [hwith, List.append_assoc] at hm
    obtain ⟨hindent, hkey⟩ := hsame m _ hm (hcloses _)
    exact Prod.ext hindent (hkey.trans hkind'.symm)
  refine ⟨range, i, Quote.ofText k.value, hlocate, applyAll?_contentSpan hline _, ?_⟩
  constructor
  · exact Text.length_lines_of_set hparts
  · intro j hj
    exact Text.raw_of_set_of_ne hparts hj
  · refine ⟨o.line, l', name, front, rest, gap, hline, hl', hkind', hcontent, ?_, hterminator⟩
    rw [hcontent', hwith, hcomment]
  · exact hshapes
  · exact Outline.locate_congr hshapes

/-- A quoted value with a comment, on a line that is ended by a carriage return
and a line feed. -/
theorem valueReplaced_of_setScalar_title :
    ∃ range i quote,
      setScalar "m:\r\n  t: 'a' # n\r\n".toList "m".toList "t".toList (.str "#b".toList) =
        .ok ⟨⟨4, 16⟩, "  t: '#b' # n".toList⟩ ∧
      (Outline.ofText "m:\r\n  t: 'a' # n\r\n".toList).locate "m".toList "t".toList =
        .ok (range, i) ∧
      ValueReplaced "m:\r\n  t: 'a' # n\r\n".toList "m:\r\n  t: '#b' # n\r\n".toList i
        ((Scalar.str "#b".toList).render quote) := by
  have hedit : setScalar "m:\r\n  t: 'a' # n\r\n".toList "m".toList "t".toList
      (.str "#b".toList) = .ok ⟨⟨4, 16⟩, "  t: '#b' # n".toList⟩ := by
    decide
  have happly : (⟨⟨4, 16⟩, "  t: '#b' # n".toList⟩ : Edit).apply
      "m:\r\n  t: 'a' # n\r\n".toList = "m:\r\n  t: '#b' # n\r\n".toList := by
    decide
  obtain ⟨range, i, quote, hlocate, -, hreplaced⟩ := valueReplaced_of_setScalar hedit
  rw [happly] at hreplaced
  exact ⟨range, i, quote, hedit, hlocate, hreplaced⟩

end Patch

end Marginalia.Yaml

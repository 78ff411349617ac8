import Marginalia.Proofs.Yaml.KeyLine
import Marginalia.Proofs.Yaml.ListRegion
import Marginalia.Proofs.Yaml.Patch

/-!
# The comments of names

A reorder looks for the comments of an order list and of its flags line by line:
`Patch.note?` is what it finds in one line of a block, a name and the comment
behind it.  A name that was found several times has the comment of the last
line, and a name that was not found has none.
-/

namespace Marginalia.Yaml.Patch

/-! ## One line -/

/-- The name for which the patcher takes a line of an order list, and the
comment behind it. -/
def itemNote? (indent : Nat) (l : OutlineLine) : Option (Text × Text) :=
  if l.indent = indent ∧ l.isItem then
    (Text.dropPrefix? ['-'] (Text.trimStart l.line.content)).map fun rest =>
      let (value, comment) := Scalar.splitComment rest
      (unquote (Text.trim value), comment)
  else none

/-- The name for which the patcher takes a line of a flag map, and the comment
behind it. -/
def flagNote? (indent : Nat) (l : OutlineLine) : Option (Text × Text) :=
  if l.indent = indent then
    match l.key?, KeyLine.ofLine? l with
    | some key, some k => some (key, k.comment)
    | _, _ => none
  else none

/-- The name for which the patcher takes a line of a block, and the comment
behind it. -/
def note? : BodyKind → Nat → OutlineLine → Option (Text × Text)
  | .sequence => itemNote?
  | .mapping => flagNote?

/-- Lines that are blank or comments are taken for no name. -/
theorem note?_eq_none {kind : BodyKind} {indent : Nat} {l : OutlineLine}
    (h : l.isContent = false) : note? kind indent l = none := by
  have hitem : l.isItem = false := by
    by_contra hitem
    rw [OutlineLine.isContent_of_isItem (by simpa using hitem)] at h
    cases h
  cases kind with
  | sequence => simp [note?, itemNote?, hitem]
  | mapping =>
      cases hk : KeyLine.ofLine? l with
      | none => simp [note?, flagNote?, hk]
      | some k =>
          rw [KeyLine.isContent_of_ofLine? hk] at h
          cases h

theorem subset_of_note?_eq_some {kind : BodyKind} {indent : Nat} {l : OutlineLine}
    {e : Text × Text} (h : note? kind indent l = some e) : e.2 ⊆ l.line.content := by
  cases kind with
  | sequence =>
      rw [note?, itemNote?] at h
      split at h
      · obtain ⟨rest, hrest, rfl⟩ := Option.map_eq_some_iff.mp h
        have hcontent := Text.dropPrefix?_eq_some_iff.mp hrest
        have hsuffix : Text.trimStart l.line.content <:+ l.line.content := List.dropWhile_suffix _
        intro c hc
        refine hsuffix.subset ?_
        rw [hcontent]
        exact List.mem_append_right _ ((Scalar.suffix_snd_splitComment rest).subset hc)
      · cases h
  | mapping =>
      rw [note?, flagNote?] at h
      split at h
      · split at h
        · next key k _ hk =>
            obtain rfl := Option.some.inj h
            obtain ⟨name, colon, hkind⟩ := KeyLine.exists_kind_eq_key hk
            simp only [KeyLine.ofLine?, hkind, Option.some.injEq] at hk
            intro c hc
            rw [← Text.before_append_after (colon + 1) l.line.content]
            refine List.mem_append_right _ ((Scalar.suffix_snd_splitComment _).subset ?_)
            rwa [← hk] at hc
        · cases h
      · cases h

/-! ## All lines of a block -/

/-- The comment behind each entry of a block, in document order. -/
def notes (kind : BodyKind) (o : Outline) (body : Body) : List (Text × Text) :=
  (bodyLines o body).filterMap (note? kind body.indent)

theorem exists_line_of_mem_notes {kind : BodyKind} {t : Text} {body : Body} {e : Text × Text}
    (he : e ∈ notes kind (Outline.ofText t) body) :
    ∃ l ∈ bodyLines (Outline.ofText t) body, l.isContent = true ∧
      note? kind body.indent l = some e := by
  obtain ⟨l, hl, hnote⟩ := List.mem_filterMap.mp he
  refine ⟨l, hl, ?_, hnote⟩
  by_contra hcontent
  rw [note?_eq_none (by simpa using hcontent)] at hnote
  cases hnote

theorem subset_of_mem_notes {kind : BodyKind} {t : Text} {body : Body} {e : Text × Text}
    (he : e ∈ notes kind (Outline.ofText t) body) : e.2 ⊆ t := by
  obtain ⟨l, hl, -, hnote⟩ := exists_line_of_mem_notes he
  have hmem : l ∈ Outline.ofText t := List.mem_of_mem_take (List.mem_of_mem_drop hl)
  obtain ⟨i, hi⟩ := List.mem_iff_getElem?.mp hmem
  have hline := Text.joinLines_take_append_line (Outline.getElem?_ofText hi).1
  rw [← hline]
  intro c hc
  simp [subset_of_note?_eq_some hnote hc]

/-- A name has the comment of one of its lines, or none when there is no such
line. -/
theorem noteOf_cases (notes : List (Text × Text)) (name : Text) :
    (∃ e ∈ notes, e.1 = name ∧ noteOf notes name = e.2) ∨
      (∀ e ∈ notes, e.1 ≠ name) ∧ noteOf notes name = [] := by
  induction notes using List.reverseRecOn with
  | nil => exact Or.inr ⟨by simp, rfl⟩
  | append_singleton notes d ih =>
      have hlast : noteOf (notes ++ [d]) name = if d.1 = name then d.2 else noteOf notes name := by
        rw [noteOf, List.foldl_append]
        rfl
      by_cases hd : d.1 = name
      · exact Or.inl ⟨d, by simp, hd, by rw [hlast, if_pos hd]⟩
      · rw [hlast, if_neg hd]
        rcases ih with ⟨e, he, hname, hnote⟩ | ⟨hother, hnone⟩
        · exact Or.inl ⟨e, List.mem_append_left _ he, hname, hnote⟩
        · refine Or.inr ⟨fun e he => ?_, hnone⟩
          rcases List.mem_append.mp he with he | he
          · exact hother e he
          · rwa [List.mem_singleton.mp he]

end Marginalia.Yaml.Patch

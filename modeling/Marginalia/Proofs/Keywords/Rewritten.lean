import Marginalia.Proofs.Keywords.CommentsWritten

/-!
# Lines that are written from their class

What a line was read as says how it is written: a name between brackets, an
alias around its arrow, a keyword or a comment as it was read.  The written line
is read as the same again, unless it is the line of a name.  The white space
around a name is not written, so a name of white space becomes a keyword, and
one that spells a section becomes its sentinel.
-/

namespace Marginalia.Keywords

namespace LineClass

/-- The line that is written for a line of this class.  Blank lines and
sentinels are written where groups and sections begin, whatever was read. -/
def line? : LineClass → Option Text
  | name n => some ('[' :: (n ++ [']']))
  | arrow pattern target => some (Alias.line ⟨pattern, target⟩)
  | keyword k => some k
  | comment written => some written
  | blank | sentinel _ => none

/-- A name, if the line has one, can stand between brackets. -/
def IsKept : LineClass → Prop
  | name n => IsGroupName n
  | _ => True

variable {content line : Text}

theorem isLine_of_mem_line? (hlf : '\n' ∉ content) (hline : line ∈ (ofContent content).line?) :
    Text.IsLine line := by
  cases hclass : ofContent content with
  | name n =>
      obtain rfl : '[' :: (n ++ [']']) = line := by simpa [hclass, line?] using hline
      exact (isInput_bracketed hlf hclass).2
  | arrow pattern target =>
      obtain rfl : Alias.line ⟨pattern, target⟩ = line := by simpa [hclass, line?] using hline
      exact (readsAs_arrow (a := ⟨pattern, target⟩) hlf hclass).isLine
  | keyword k =>
      obtain rfl : k = line := by simpa [hclass, line?] using hline
      exact (readsAs_keyword hlf hclass).isLine
  | comment written =>
      obtain rfl : written = line := by simpa [hclass, line?] using hline
      exact (readsAs_comment hlf hclass).isLine
  | blank => simp [hclass, line?] at hline
  | sentinel opened => simp [hclass, line?] at hline

theorem ofContent_of_mem_line? (hlf : '\n' ∉ content) (hline : line ∈ (ofContent content).line?) :
    ofContent line = (ofContent content).rewritten := by
  cases hclass : ofContent content with
  | name n =>
      obtain rfl : '[' :: (n ++ [']']) = line := by simpa [hclass, line?] using hline
      rfl
  | arrow pattern target =>
      obtain rfl : Alias.line ⟨pattern, target⟩ = line := by simpa [hclass, line?] using hline
      exact (readsAs_arrow (a := ⟨pattern, target⟩) hlf hclass).ofContent_eq
  | keyword k =>
      obtain rfl : k = line := by simpa [hclass, line?] using hline
      exact (readsAs_keyword hlf hclass).ofContent_eq
  | comment written =>
      obtain rfl : written = line := by simpa [hclass, line?] using hline
      exact (readsAs_comment hlf hclass).ofContent_eq
  | blank => simp [hclass, line?] at hline
  | sentinel opened => simp [hclass, line?] at hline

theorem rewritten_eq_self_iff (hlf : '\n' ∉ content) :
    (ofContent content).rewritten = ofContent content ↔ (ofContent content).IsKept := by
  cases hclass : ofContent content with
  | name n =>
      exact ⟨fun hsame => (isGroupName_of_bracketed hsame).1,
        fun hn => (readsAs_name hlf hclass hn).ofContent_eq⟩
  | arrow pattern target => exact iff_of_true rfl trivial
  | keyword k => exact iff_of_true rfl trivial
  | comment written => exact iff_of_true rfl trivial
  | blank => exact iff_of_true rfl trivial
  | sentinel opened => exact iff_of_true rfl trivial

/-- A name that cannot stand between brackets becomes a keyword or a
sentinel. -/
theorem rewritten_of_not_isKept {c : LineClass} (h : ¬c.IsKept) :
    c.rewritten = keyword ['[', ']'] ∨ ∃ opened, c.rewritten = sentinel opened := by
  cases c with
  | name n =>
      simp only [IsKept, IsGroupName, not_and_or, not_not] at h
      rcases h with rfl | rfl | rfl
      · exact Or.inl (by decide)
      · exact Or.inr ⟨.globalFilter, by decide⟩
      · exact Or.inr ⟨.wordGroups, by decide⟩
  | arrow pattern target => exact absurd trivial h
  | keyword k => exact absurd trivial h
  | comment written => exact absurd trivial h
  | blank => exact absurd trivial h
  | sentinel opened => exact absurd trivial h

/-- Several lines that are written for lines of these classes. -/
theorem map_ofContent_of_map_line? {cs : List LineClass} {ls : List Text}
    (hread : ∀ c ∈ cs, ∃ content, '\n' ∉ content ∧ ofContent content = c)
    (hlines : cs.map line? = ls.map some) : ls.map ofContent = cs.map rewritten := by
  induction cs generalizing ls with
  | nil =>
      obtain rfl : ls = [] := by simpa using hlines.symm
      rfl
  | cons c cs ih =>
      obtain ⟨line, rest, rfl, hline, hrest⟩ := List.map_eq_cons_iff.mp hlines.symm
      obtain ⟨⟨content, hlf, rfl⟩, hread'⟩ := List.forall_mem_cons.mp hread
      rw [List.map_cons, List.map_cons, ih hread' hrest.symm,
        ofContent_of_mem_line? hlf (Option.mem_def.mpr hline.symm)]

end LineClass

/-- A group is written line by line from the classes that its lines were read
as. -/
theorem GroupKind.map_line?_classes (kind : GroupKind) :
    kind.classes.map LineClass.line? = kind.lines.map some := by
  cases kind with
  | plain keywords => simp [classes, lines, LineClass.line?]
  | named name keywords => simp [classes, lines, LineClass.line?]
  | single item => rfl
  | cluster items => simp [classes, lines, LineClass.line?]

namespace KeywordList

/-- A line that is written for a line of a text is read as that line was, unless
it is the line of a name that cannot stand between brackets; that one is read as
a keyword or a sentinel.  The lines of a group are written in this way, so they
are read back when its name can stand between brackets. -/
theorem ofContent_line?_eq_iff (t : Text) :
    (∀ l ∈ t.lines, ∀ line ∈ (classOf l).line?,
      Text.IsLine line ∧
        (LineClass.ofContent line = classOf l ↔ (classOf l).IsKept) ∧
        (¬(classOf l).IsKept → LineClass.ofContent line = .keyword ['[', ']'] ∨
          ∃ opened, LineClass.ofContent line = .sentinel opened)) ∧
    ∀ g ∈ (ofText t).groups,
      g.kind.classes.map LineClass.line? = g.kind.lines.map some ∧
        (g.kind.lines.map LineClass.ofContent = g.kind.classes ↔
          ∀ c ∈ g.kind.classes, c.IsKept) := by
  constructor
  · intro l hl line hline
    have hlf := Text.not_mem_content_of_mem_lines hl
    have hwritten : LineClass.ofContent line = (classOf l).rewritten :=
      LineClass.ofContent_of_mem_line? hlf hline
    rw [hwritten]
    exact ⟨LineClass.isLine_of_mem_line? hlf hline, LineClass.rewritten_eq_self_iff hlf,
      LineClass.rewritten_of_not_isKept⟩
  · intro g hg
    have hread : ∀ c ∈ g.kind.classes, ∃ content, '\n' ∉ content ∧
        LineClass.ofContent content = c := fun c hc => exists_content_of_mem_classes hg hc
    refine ⟨g.kind.map_line?_classes, ?_⟩
    rw [LineClass.map_ofContent_of_map_line? hread g.kind.map_line?_classes]
    conv_lhs => rhs; rw [← List.map_id g.kind.classes]
    rw [List.map_inj_left]
    refine forall₂_congr fun c hc => ?_
    obtain ⟨content, hlf, rfl⟩ := hread c hc
    exact LineClass.rewritten_eq_self_iff hlf

/-- Of several arrows the first one stays the arrow, with other white space
around it. -/
theorem ofContent_line?_eq_iff_arrows :
    let t : Text := "[WORD_GROUPS]\n\u3000[x \t=>\u00a0=> y]=> z\n".toList
    let line : Text := "[x => => y]=> z".toList
    (∃ l ∈ t.lines, l.content ≠ line ∧ line ∈ (classOf l).line? ∧
      LineClass.ofContent line = classOf l) ∧
      ∀ g ∈ (ofText t).groups, g.kind.lines.map LineClass.ofContent = g.kind.classes := by
  intro t line
  obtain ⟨hlines, hgroups⟩ := ofContent_line?_eq_iff t
  constructor
  · obtain ⟨l, hl, hcontent, hclass⟩ : ∃ l ∈ t.lines, l.content ≠ line ∧
        classOf l = .arrow "[x".toList "=> y]=> z".toList := by decide
    have hline : line ∈ (classOf l).line? := by rw [hclass]; decide
    have hkept : (classOf l).IsKept := by rw [hclass]; trivial
    exact ⟨l, hl, hcontent, hline, (hlines l hl line hline).2.1.mpr hkept⟩
  · intro g hg
    have harrow : ∀ g ∈ (ofText t).groups, ∃ item, g.kind = .single item := by
      have hkinds : (ofText t).groups.map Group.kind =
          [.single ⟨"[x".toList, "=> y]=> z".toList⟩] := by decide
      intro g hg
      have hmem : g.kind ∈ (ofText t).groups.map Group.kind := List.mem_map_of_mem hg
      rw [hkinds] at hmem
      exact ⟨_, List.mem_singleton.mp hmem⟩
    obtain ⟨item, hitem⟩ := harrow g hg
    refine (hgroups g hg).2.mpr fun c hc => ?_
    rw [hitem, GroupKind.classes, List.mem_singleton] at hc
    rw [hc]
    trivial

/-- Without the white space inside its brackets a line may be a sentinel or a
keyword. -/
theorem ofContent_line?_ne_of_white :
    let t : Text := "[ GLOBAL_FILTER ]\n[ ]\n".toList
    t.lines.map classOf = [.name "GLOBAL_FILTER".toList, .name []] ∧
      t.lines.map (fun l => (classOf l).line?) =
        [some "[GLOBAL_FILTER]".toList, some "[]".toList] ∧
      LineClass.ofContent "[GLOBAL_FILTER]".toList = .sentinel .globalFilter ∧
      LineClass.ofContent "[]".toList = .keyword "[]".toList ∧
      ¬∀ l ∈ t.lines, ∀ line ∈ (classOf l).line?, LineClass.ofContent line = classOf l := by
  decide

end KeywordList

end Marginalia.Keywords

import Marginalia.Proofs.Keywords.Step
import Mathlib.Data.List.Induction

/-!
# Every line of content is accounted for

A name, an alias or a keyword that stands in no global section belongs to one
group, and the lines of a group follow one another from the line that it was
read from.  `AccountsFor` says so of the groups of some lines; one more line
keeps it, whether the line is skipped, joins the open group or opens one.  So a
keyword list has every line of content once, in the order of the text.
-/

namespace Marginalia.Keywords

/-! ## The lines of content -/

def classOf (l : Line) : LineClass :=
  LineClass.ofContent l.content

def LineClass.isContent : LineClass → Bool
  | name _ => true
  | arrow _ _ => true
  | keyword _ => true
  | _ => false

/-- The section below a line, given the section that the line stands in. -/
def Section.below (opened : Option Section) (l : Line) : Option Section :=
  match classOf l with
  | .sentinel next => some next
  | _ => opened

/-- The lines of content in the sections that `keep` selects, the first line
being in the section `opened`.  The lines above the first sentinel stand in no
section. -/
def contentIn (keep : Option Section → Bool) (opened : Option Section) : List Line → List Line
  | [] => []
  | l :: ls =>
    let rest := contentIn keep (Section.below opened l) ls
    if (classOf l).isContent && keep opened then l :: rest else rest

/-- The lines of content outside the global sections. -/
def groupContent (ls : List Line) : List Line :=
  contentIn (· != some .globalFilter) none ls

def globalContent (ls : List Line) : List Line :=
  contentIn (· == some .globalFilter) none ls

def sectionBelow (ls : List Line) : Option Section :=
  ls.foldl Section.below none

theorem isContent_classOf_iff {l : Line} :
    (classOf l).isContent = true ↔ LineClass.IsContent (Text.trim l.content) := by
  rw [LineClass.isContent_iff, classOf]
  cases LineClass.ofContent l.content <;> simp [LineClass.isContent]

section Concat

variable {ls : List Line} {l : Line}

theorem contentIn_append (keep : Option Section → Bool) (opened : Option Section)
    (ls ms : List Line) :
    contentIn keep opened (ls ++ ms) =
      contentIn keep opened ls ++ contentIn keep (ls.foldl Section.below opened) ms := by
  induction ls generalizing opened with
  | nil => rfl
  | cons l ls ih =>
      simp only [List.cons_append, contentIn, ih, List.foldl_cons]
      split
      · rfl
      · rfl

theorem contentIn_concat (keep : Option Section → Bool) (opened : Option Section) (ls : List Line)
    (l : Line) :
    contentIn keep opened (ls ++ [l]) = contentIn keep opened ls ++
      if (classOf l).isContent && keep (ls.foldl Section.below opened) then [l] else [] :=
  contentIn_append keep opened ls [l]

theorem sectionBelow_concat (ls : List Line) (l : Line) :
    sectionBelow (ls ++ [l]) = Section.below (sectionBelow ls) l := by
  rw [sectionBelow, List.foldl_append]
  rfl

theorem groupContent_concat_of_not_isContent (h : (classOf l).isContent = false) :
    groupContent (ls ++ [l]) = groupContent ls := by
  simp [groupContent, contentIn_concat, h]

theorem globalContent_concat_of_not_isContent (h : (classOf l).isContent = false) :
    globalContent (ls ++ [l]) = globalContent ls := by
  simp [globalContent, contentIn_concat, h]

theorem groupContent_concat_of_global (h : sectionBelow ls = some .globalFilter) :
    groupContent (ls ++ [l]) = groupContent ls := by
  rw [sectionBelow] at h
  simp [groupContent, contentIn_concat, h]

theorem globalContent_concat_of_global (hl : (classOf l).isContent = true)
    (h : sectionBelow ls = some .globalFilter) :
    globalContent (ls ++ [l]) = globalContent ls ++ [l] := by
  rw [sectionBelow] at h
  simp [globalContent, contentIn_concat, h, hl]

theorem groupContent_concat_of_not_global (hl : (classOf l).isContent = true)
    (h : sectionBelow ls ≠ some .globalFilter) :
    groupContent (ls ++ [l]) = groupContent ls ++ [l] := by
  rw [sectionBelow] at h
  simp [groupContent, contentIn_concat, h, hl]

theorem globalContent_concat_of_not_global (h : sectionBelow ls ≠ some .globalFilter) :
    globalContent (ls ++ [l]) = globalContent ls := by
  rw [sectionBelow] at h
  simp [globalContent, contentIn_concat, h]

theorem sectionBelow_concat_of_isContent (hl : (classOf l).isContent = true) :
    sectionBelow (ls ++ [l]) = sectionBelow ls := by
  rw [sectionBelow_concat, Section.below]
  cases hclass : classOf l <;> simp_all [LineClass.isContent]

end Concat

/-! ## The lines of a group -/

def GroupKind.classes : GroupKind → List LineClass
  | plain keywords => keywords.map .keyword
  | named name keywords => .name name :: keywords.map .keyword
  | single item => [.arrow item.pattern item.target]
  | cluster items => items.map fun item => .arrow item.pattern item.target

/-- The lines that a group was read from. -/
def Group.linesIn (ls : List Line) (g : Group) : List Line :=
  (ls.drop g.start).take g.lineCount

theorem GroupKind.length_classes (kind : GroupKind) :
    kind.classes.length = kind.lines.length := by
  cases kind with
  | plain keywords => simp [classes, lines]
  | named name keywords => simp [classes, lines]
  | single item => rfl
  | cluster items => simp [classes, lines]

/-- The lines of some groups, each one once and in order, are the lines
`content`, and what is read in the lines of a group is the group. -/
structure AccountsFor (ls content : List Line) (gs : List Group) : Prop where
  flatMap_linesIn : gs.flatMap (Group.linesIn ls) = content
  map_classOf : ∀ g ∈ gs, (g.linesIn ls).map classOf = g.kind.classes
  lineCount_pos : ∀ g ∈ gs, 0 < g.lineCount
  pairwise : gs.Pairwise fun above below => above.start + above.lineCount ≤ below.start

namespace AccountsFor

variable {ls content : List Line} {gs : List Group} {g : Group} {l : Line}

theorem within (h : AccountsFor ls content gs) (hg : g ∈ gs) :
    g.start + g.lineCount ≤ ls.length := by
  have hpos := h.lineCount_pos g hg
  have hlength := congrArg List.length (h.map_classOf g hg)
  rw [List.length_map, GroupKind.length_classes, Group.linesIn, List.length_take, List.length_drop]
    at hlength
  rw [Group.lineCount] at hpos hlength ⊢
  omega

theorem linesIn_concat (h : AccountsFor ls content gs) (hg : g ∈ gs) (l : Line) :
    g.linesIn (ls ++ [l]) = g.linesIn ls := by
  have hwithin := h.within hg
  rw [Group.linesIn, List.drop_append_of_le_length (by omega), List.take_append_of_le_length]
  · rfl
  · rw [List.length_drop]
    omega

theorem skip (h : AccountsFor ls content gs) (l : Line) : AccountsFor (ls ++ [l]) content gs := by
  constructor
  · rw [← h.flatMap_linesIn]
    exact List.flatMap_congr fun _ hg => h.linesIn_concat hg l
  · intro g hg
    rw [h.linesIn_concat hg]
    exact h.map_classOf g hg
  · exact h.lineCount_pos
  · exact h.pairwise

/-- One more group, whose lines reach to the end. -/
theorem concat (h : AccountsFor ls content gs)
    (hbelow : ∀ above ∈ gs, above.start + above.lineCount ≤ g.start)
    (hend : g.start + g.lineCount = ls.length) (hpos : 0 < g.lineCount)
    (hclasses : (ls.drop g.start).map classOf = g.kind.classes) :
    AccountsFor ls (content ++ ls.drop g.start) (gs ++ [g]) := by
  have hlines : g.linesIn ls = ls.drop g.start := by
    apply List.take_of_length_le
    rw [List.length_drop]
    omega
  constructor
  · rw [List.flatMap_append, h.flatMap_linesIn, List.flatMap_singleton, hlines]
  · apply forall_mem_concat h.map_classOf
    rw [hlines, hclasses]
  · exact forall_mem_concat h.lineCount_pos hpos
  · rw [List.pairwise_append]
    exact ⟨h.pairwise, List.pairwise_singleton _ _, by simpa using hbelow⟩

theorem dropLast (h : AccountsFor ls content (gs ++ [g])) :
    AccountsFor ls (gs.flatMap (Group.linesIn ls)) gs ∧
      (∀ above ∈ gs, above.start + above.lineCount ≤ g.start) ∧
      content = gs.flatMap (Group.linesIn ls) ++ g.linesIn ls := by
  obtain ⟨hpairwise, -, hbelow⟩ := List.pairwise_append.mp h.pairwise
  have hcontent := h.flatMap_linesIn
  rw [List.flatMap_append, List.flatMap_singleton] at hcontent
  refine ⟨⟨rfl, ?_, ?_, hpairwise⟩, by simpa using hbelow, hcontent.symm⟩
  · intro above habove
    exact h.map_classOf above (List.mem_append_left _ habove)
  · intro above habove
    exact h.lineCount_pos above (List.mem_append_left _ habove)

theorem openBelow (h : AccountsFor ls content gs) (hstart : g.start = ls.length)
    (hclasses : g.kind.classes = [classOf l]) :
    AccountsFor (ls ++ [l]) (content ++ [l]) (gs ++ [g]) := by
  have hcount : g.lineCount = 1 := by
    rw [Group.lineCount, ← GroupKind.length_classes, hclasses, List.length_singleton]
  have hdrop : (ls ++ [l]).drop g.start = [l] := by rw [hstart, List.drop_left]
  have hconcat := (h.skip l).concat (g := g)
    (fun above habove => by rw [hstart]; exact h.within habove)
    (by rw [hstart, hcount, List.length_append, List.length_singleton])
    (by rw [hcount]; exact Nat.one_pos)
    (by rw [hdrop, hclasses, List.map_singleton])
  rwa [hdrop] at hconcat

theorem extend {g' : Group} (h : AccountsFor ls content (gs ++ [g]))
    (hend : g.start + g.lineCount = ls.length) (hstart : g'.start = g.start)
    (hclasses : g'.kind.classes = g.kind.classes ++ [classOf l]) :
    AccountsFor (ls ++ [l]) (content ++ [l]) (gs ++ [g']) := by
  obtain ⟨habove, hbelow, hcontent⟩ := h.dropLast
  have hpos := h.lineCount_pos g (by simp)
  have hcount : g'.lineCount = g.lineCount + 1 := by
    rw [Group.lineCount, Group.lineCount, ← GroupKind.length_classes, ← GroupKind.length_classes,
      hclasses, List.length_append, List.length_singleton]
  have hlines : g.linesIn ls = ls.drop g.start := by
    apply List.take_of_length_le
    rw [List.length_drop]
    omega
  have hread := h.map_classOf g (by simp)
  have hdrop : (ls ++ [l]).drop g'.start = g.linesIn ls ++ [l] := by
    rw [hstart, hlines, List.drop_append_of_le_length (by omega)]
  have hconcat := (habove.skip l).concat (g := g')
    (fun above hmem => by rw [hstart]; exact hbelow above hmem)
    (by rw [hstart, hcount, List.length_append, List.length_singleton, ← hend, Nat.add_assoc])
    (by rw [hcount]; exact Nat.succ_pos _)
    (by rw [hdrop, hclasses, List.map_append, hread, List.map_singleton])
  rw [hcontent, List.append_assoc]
  rwa [hdrop] at hconcat

end AccountsFor

end Marginalia.Keywords

import Marginalia.Keywords.Assembly

/-!
# Reading without line numbers

Groups remember the line they were read from, and nothing else depends on it.
`unplaced` forgets it, in a keyword list and in an assembly.  Reading commutes
with forgetting, so what a text gives, line numbers apart, is what its contents
give one after another.
-/

namespace Marginalia.Keywords

namespace Group

/-- The group without the line it was read from. -/
def unplaced (g : Group) : Group :=
  { g with start := 0 }

end Group

namespace KeywordList

/-- The list without the lines its groups were read from. -/
def unplaced (l : KeywordList) : KeywordList :=
  { l with groups := l.groups.map Group.unplaced }

end KeywordList

namespace Assembly

/-- The assembly without the lines its groups were read from. -/
def unplaced (a : Assembly) : Assembly :=
  { a with
    leaf := a.leaf.map fun g => { g with start := 0 }
    run := a.run.map Group.unplaced
    list := a.list.unplaced }

def pushContent (a : Assembly) (content : Text) : Assembly :=
  a.push ⟨0, 0, content, .none⟩

/-- Some more lines, given their contents. -/
def read (a : Assembly) (contents : List Text) : Assembly :=
  contents.foldl pushContent a

@[simp] theorem read_nil (a : Assembly) : a.read [] = a := rfl

@[simp] theorem read_cons (a : Assembly) (content : Text) (contents : List Text) :
    a.read (content :: contents) = (a.pushContent content).read contents := rfl

@[simp] theorem read_append (a : Assembly) (contents contents' : List Text) :
    a.read (contents ++ contents') = (a.read contents).read contents' :=
  List.foldl_append

theorem unplaced_closeLeaf (a : Assembly) : a.closeLeaf.unplaced = a.unplaced.closeLeaf := by
  cases hleaf : a.leaf with
  | none => simp [closeLeaf, unplaced, hleaf]
  | some g => simp [closeLeaf, unplaced, hleaf, Group.unplaced]

theorem map_unplaced_numberRun (cluster : Nat) (run : List Group) :
    (numberRun cluster run).map Group.unplaced = numberRun cluster (run.map Group.unplaced) := by
  by_cases hrun : 1 < run.length
  · apply List.ext_getElem?
    intro i
    simp only [numberRun, List.length_map, hrun, if_true, List.getElem?_map, List.getElem?_mapIdx,
      Option.map_map]
    rfl
  · simp [numberRun, hrun]

theorem unplaced_flushRun (a : Assembly) : a.flushRun.unplaced = a.unplaced.flushRun := by
  simp [flushRun, unplaced, KeywordList.unplaced, map_unplaced_numberRun]

theorem hasGroups_unplaced (a : Assembly) : a.unplaced.hasGroups = a.hasGroups := by
  simp [hasGroups, unplaced, KeywordList.unplaced]

theorem unplaced_openLeaf (a : Assembly) (start : Nat) (kind : OpenKind) :
    (a.openLeaf start kind).unplaced = a.unplaced.openLeaf 0 kind := by
  have hclose := unplaced_closeLeaf a
  rw [openLeaf, openLeaf, ← hclose]
  rfl

theorem unplaced_pushComment (a : Assembly) (written : Text) :
    (a.pushComment written).unplaced = a.unplaced.pushComment written := by
  have hclose := unplaced_closeLeaf a
  have hgroups := hasGroups_unplaced a.closeLeaf
  have hafter : a.unplaced.afterSentinel = a.afterSentinel := rfl
  have hopened : a.unplaced.opened = a.opened := rfl
  rw [pushComment, pushComment, hafter, hopened]
  by_cases hskip : a.afterSentinel = true ∨ a.opened ≠ some .wordGroups
  · rw [if_pos hskip, if_pos hskip]
  · rw [if_neg hskip, if_neg hskip, ← hclose]
    dsimp only
    rw [hgroups]
    rfl

theorem unplaced_pushBlank (a : Assembly) : a.pushBlank.unplaced = a.unplaced.pushBlank := by
  have hclose := unplaced_closeLeaf { a with afterSentinel := false }
  have hflush := unplaced_flushRun (closeLeaf { a with afterSentinel := false })
  rw [hclose] at hflush
  have hstep : { a.unplaced with afterSentinel := false } =
      unplaced { a with afterSentinel := false } := rfl
  rw [pushBlank, pushBlank, hstep, ← hflush]
  dsimp only
  generalize (closeLeaf { a with afterSentinel := false }).flushRun = b
  have hopened : (unplaced { a with afterSentinel := false }).opened = a.opened := rfl
  rw [hopened]
  by_cases hskip : a.opened ≠ some .wordGroups
  · rw [if_pos hskip, if_pos hskip]
  · have hpending : b.unplaced.pending = b.pending := rfl
    rw [if_neg hskip, if_neg hskip, hpending]
    by_cases hnone : b.pending.isEmpty
    · rw [if_pos hnone, if_pos hnone]
      rfl
    · rw [if_neg hnone, if_neg hnone]
      rfl

theorem unplaced_pushSentinel (a : Assembly) (opened : Section) :
    (a.pushSentinel opened).unplaced = a.unplaced.pushSentinel opened := by
  have hclose := unplaced_closeLeaf a
  have hflush := unplaced_flushRun a.closeLeaf
  rw [pushSentinel, pushSentinel, ← hclose, ← hflush]
  rfl

theorem unplaced_pushName (a : Assembly) (index : Nat) (name : Text) :
    (a.pushName index name).unplaced = a.unplaced.pushName 0 name :=
  unplaced_openLeaf a.enter index (.named name [])

theorem unplaced_pushAlias (a : Assembly) (index : Nat) (item : Alias) :
    (a.pushAlias index item).unplaced = a.unplaced.pushAlias 0 item := by
  have hopen := unplaced_openLeaf a.enter index (.aliases [item])
  cases hleaf : a.leaf with
  | none => simpa [pushAlias, hleaf, enter, unplaced] using hopen
  | some g =>
      obtain ⟨start, comments, kind⟩ := g
      cases kind with
      | aliases items => simp [pushAlias, hleaf, enter, unplaced]
      | plain keywords => simpa [pushAlias, hleaf, enter, unplaced] using hopen
      | named name keywords => simpa [pushAlias, hleaf, enter, unplaced] using hopen

theorem unplaced_pushKeyword (a : Assembly) (index : Nat) (keyword : Text) :
    (a.pushKeyword index keyword).unplaced = a.unplaced.pushKeyword 0 keyword := by
  have hopen := unplaced_openLeaf a.enter index (.plain [keyword])
  cases hleaf : a.leaf with
  | none => simpa [pushKeyword, hleaf, enter, unplaced] using hopen
  | some g =>
      obtain ⟨start, comments, kind⟩ := g
      cases kind with
      | aliases items => simpa [pushKeyword, hleaf, enter, unplaced] using hopen
      | plain keywords => simp [pushKeyword, hleaf, enter, unplaced]
      | named name keywords => simp [pushKeyword, hleaf, enter, unplaced]

theorem unplaced_push (a : Assembly) (l : Line) :
    (a.push l).unplaced = a.unplaced.pushContent l.content := by
  have hopened : a.unplaced.opened = a.opened := rfl
  unfold pushContent push
  dsimp only
  rw [hopened]
  cases LineClass.ofContent l.content with
  | sentinel opened => exact unplaced_pushSentinel a opened
  | comment written => exact unplaced_pushComment a written
  | blank => exact unplaced_pushBlank a
  | name name =>
      by_cases hglobal : a.opened = some .globalFilter
      · simp only [hglobal, if_true]
        rfl
      · simp only [hglobal, if_false]
        exact unplaced_pushName a l.index name
  | arrow pattern target =>
      by_cases hglobal : a.opened = some .globalFilter
      · simp only [hglobal, if_true]
        rfl
      · simp only [hglobal, if_false]
        exact unplaced_pushAlias a l.index ⟨pattern, target⟩
  | keyword keyword =>
      by_cases hglobal : a.opened = some .globalFilter
      · simp only [hglobal, if_true]
        rfl
      · simp only [hglobal, if_false]
        exact unplaced_pushKeyword a l.index keyword

theorem unplaced_foldl_push (a : Assembly) (ls : List Line) :
    (ls.foldl push a).unplaced = a.unplaced.read (ls.map Line.content) := by
  induction ls generalizing a with
  | nil => rfl
  | cons l ls ih => rw [List.foldl_cons, ih, unplaced_push, List.map_cons, read_cons]

theorem unplaced_finish (a : Assembly) : a.finish.unplaced = a.unplaced.finish := by
  have hclose := unplaced_closeLeaf a
  have hflush := unplaced_flushRun a.closeLeaf
  rw [finish, finish, ← hclose, ← hflush]
  simp [unplaced, KeywordList.unplaced]

end Assembly

namespace KeywordList

/-- A text gives, line numbers apart, what its contents give. -/
theorem unplaced_ofText (t : Text) :
    (ofText t).unplaced = (Assembly.empty.read (t.lines.map Line.content)).finish := by
  rw [ofText, Assembly.unplaced_finish, Assembly.unplaced_foldl_push]
  rfl

end KeywordList

end Marginalia.Keywords

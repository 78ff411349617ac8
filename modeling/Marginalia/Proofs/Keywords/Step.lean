import Marginalia.Proofs.Keywords.Line
import Marginalia.Proofs.Keywords.Unplaced

/-!
# What one line does

One lemma for each thing that a line can do to an assembly.  Outside the global
section a line of content joins the open group or opens one, whatever its shape:
`OpenKind.ofClass?` is the content of a group of one line, and
`OpenKind.extend?` the content of a group with one line more.
-/

namespace Marginalia.Keywords

namespace OpenKind

/-- The content of a group that one line opens. -/
def ofClass? : LineClass → Option OpenKind
  | .name name => some (.named name [])
  | .arrow pattern target => some (.aliases [⟨pattern, target⟩])
  | .keyword keyword => some (.plain [keyword])
  | _ => none

/-- The content of an open group after one more line, unless the line opens a
group of its own. -/
def extend? (kind : OpenKind) (line : LineClass) : Option OpenKind :=
  match kind, line with
  | .plain keywords, .keyword keyword => some (.plain (keywords ++ [keyword]))
  | .named name keywords, .keyword keyword => some (.named name (keywords ++ [keyword]))
  | .aliases items, .arrow pattern target => some (.aliases (items ++ [⟨pattern, target⟩]))
  | _, _ => none

end OpenKind

namespace Assembly

/-- The assembly with other comments waiting and another gap, below the comments
of a sentinel. -/
def waiting (a : Assembly) (pending : List Text) (gap : Nat) : Assembly :=
  { a with pending, gap, afterSentinel := false }

/-- The assembly with a group open, which took the comments that waited. -/
def begin (a : Assembly) (g : OpenGroup) : Assembly :=
  { a.enter with leaf := some g, pending := [], gap := 0 }

/-! ## Closing -/

section Closing

variable (a : Assembly)

@[simp] theorem leaf_closeLeaf : a.closeLeaf.leaf = none := by
  cases hleaf : a.leaf <;> simp [closeLeaf, hleaf]

@[simp] theorem opened_closeLeaf : a.closeLeaf.opened = a.opened := by
  cases hleaf : a.leaf <;> simp [closeLeaf, hleaf]

@[simp] theorem pending_closeLeaf : a.closeLeaf.pending = a.pending := by
  cases hleaf : a.leaf <;> simp [closeLeaf, hleaf]

@[simp] theorem gap_closeLeaf : a.closeLeaf.gap = a.gap := by
  cases hleaf : a.leaf <;> simp [closeLeaf, hleaf]

@[simp] theorem afterSentinel_closeLeaf : a.closeLeaf.afterSentinel = a.afterSentinel := by
  cases hleaf : a.leaf <;> simp [closeLeaf, hleaf]

@[simp] theorem nextCluster_closeLeaf : a.closeLeaf.nextCluster = a.nextCluster := by
  cases hleaf : a.leaf <;> simp [closeLeaf, hleaf]

@[simp] theorem list_closeLeaf : a.closeLeaf.list = a.list := by
  cases hleaf : a.leaf <;> simp [closeLeaf, hleaf]

end Closing

theorem closeLeaf_of_leaf_eq_none {a : Assembly} (h : a.leaf = none) : a.closeLeaf = a := by
  simp [closeLeaf, h]

theorem flushRun_of_run_eq_nil {a : Assembly} (h : a.run = []) : a.flushRun = a := by
  cases a
  simp_all [flushRun, numberRun]

theorem isEmpty_numberRun (cluster : Nat) (run : List Group) :
    (numberRun cluster run).isEmpty = run.isEmpty := by
  unfold numberRun
  split
  · cases run with
    | nil => rfl
    | cons g run => simp [List.mapIdx_cons]
  · rfl

theorem map_numberRun {β : Type} {f : Group → β}
    (hf : ∀ (g : Group) (related : Option Related), f { g with related } = f g) (cluster : Nat)
    (run : List Group) : (numberRun cluster run).map f = run.map f := by
  unfold numberRun
  split
  · apply List.ext_getElem?
    intro i
    simp only [List.getElem?_map, List.getElem?_mapIdx, Option.map_map]
    exact congrArg (Option.map · run[i]?) (funext fun g => hf g _)
  · rfl

theorem hasGroups_flushRun (a : Assembly) : a.flushRun.hasGroups = a.hasGroups := by
  have hnumbered := isEmpty_numberRun a.nextCluster a.run
  cases hgroups : a.list.groups with
  | nil => simp [hasGroups, flushRun, hgroups, hnumbered]
  | cons g gs => simp [hasGroups, flushRun, hgroups]

/-! ## Lines outside the groups -/

section Lines

variable {a : Assembly} {l : Line} {content : Text}

theorem push_sentinel {opened : Section} (h : LineClass.ofContent l.content = .sentinel opened) :
    a.push l = a.pushSentinel opened := by
  simp [push, h]

theorem push_word (h : LineClass.IsContent (Text.trim l.content))
    (hopened : a.opened = some .globalFilter) :
    a.push l = a.pushWord (Text.trim l.content) := by
  rcases LineClass.isContent_iff.mp h with ⟨n, hn⟩ | ⟨pattern, target, harrow⟩ | ⟨k, hk⟩
  · simp [push, hn, hopened]
  · simp [push, harrow, hopened]
  · simp [push, hk, hopened]

theorem push_blank (h : LineClass.ofContent l.content = .blank) : a.push l = a.pushBlank := by
  simp [push, h]

theorem push_comment {written : Text} (h : LineClass.ofContent l.content = .comment written) :
    a.push l = a.pushComment written := by
  simp [push, h]

theorem pushContent_sentinel {opened : Section}
    (h : LineClass.ofContent content = .sentinel opened) :
    a.pushContent content = a.pushSentinel opened :=
  push_sentinel h

theorem pushContent_word (h : LineClass.IsContent (Text.trim content))
    (hopened : a.opened = some .globalFilter) :
    a.pushContent content = a.pushWord (Text.trim content) :=
  push_word h hopened

theorem pushContent_blank (h : LineClass.ofContent content = .blank) :
    a.pushContent content = a.pushBlank :=
  push_blank h

theorem pushContent_comment {written : Text}
    (h : LineClass.ofContent content = .comment written) :
    a.pushContent content = a.pushComment written :=
  push_comment h

theorem pushBlank_of_opened_ne (hopened : a.opened ≠ some .wordGroups) :
    a.pushBlank = { a with afterSentinel := false } := by
  simp [pushBlank, hopened]

theorem pushBlank_of_pending_eq_nil (hopened : a.opened = some .wordGroups)
    (hpending : a.pending = []) :
    a.pushBlank = a.closeLeaf.flushRun.waiting [] (a.gap + 1) := by
  cases hleaf : a.leaf <;>
    simp [pushBlank, closeLeaf, flushRun, waiting, hopened, hpending, hleaf]

theorem pushBlank_of_pending_ne_nil (hopened : a.opened = some .wordGroups)
    (hpending : a.pending ≠ []) :
    a.pushBlank = a.closeLeaf.flushRun.waiting (a.pending ++ [[]]) a.gap := by
  cases hleaf : a.leaf <;>
    simp [pushBlank, closeLeaf, flushRun, waiting, hopened, hpending, hleaf]

theorem pushComment_of_skip {written : Text}
    (hskip : a.afterSentinel = true ∨ a.opened ≠ some .wordGroups) :
    a.pushComment written = a := by
  rw [pushComment, if_pos hskip]

theorem pushComment_of_opened {written : Text} (hafter : a.afterSentinel = false)
    (hopened : a.opened = some .wordGroups) :
    a.pushComment written =
      a.closeLeaf.waiting
        (a.pending ++ (if a.closeLeaf.hasGroups then List.replicate a.gap [] else []) ++ [written])
        0 := by
  simp [pushComment, waiting, hafter, hopened]

/-- A blank line below the sentinel of the groups ends the run, and elsewhere
does nothing. -/
theorem pushBlank_cases (a : Assembly) :
    a.opened ≠ some .wordGroups ∧ a.pushBlank = { a with afterSentinel := false } ∨
      a.opened = some .wordGroups ∧ ∃ pending gap, (∀ c ∈ pending, c ∈ a.pending ∨ c = []) ∧
        a.pushBlank = a.closeLeaf.flushRun.waiting pending gap := by
  by_cases hopened : a.opened = some .wordGroups
  · refine Or.inr ⟨hopened, ?_⟩
    by_cases hpending : a.pending = []
    · exact ⟨_, _, by simp, pushBlank_of_pending_eq_nil hopened hpending⟩
    · exact ⟨_, _, by simp, pushBlank_of_pending_ne_nil hopened hpending⟩
  · exact Or.inl ⟨hopened, pushBlank_of_opened_ne hopened⟩

/-- A comment among the groups ends the group above it, and elsewhere does
nothing. -/
theorem pushComment_cases (a : Assembly) (written : Text) :
    (a.opened ≠ some .wordGroups ∨ a.afterSentinel = true) ∧ a.pushComment written = a ∨
      a.opened = some .wordGroups ∧
        ∃ pending gap, (∀ c ∈ pending, c ∈ a.pending ∨ c = [] ∨ c = written) ∧
          a.pushComment written = a.closeLeaf.waiting pending gap := by
  by_cases hskip : a.afterSentinel = true ∨ a.opened ≠ some .wordGroups
  · exact Or.inl ⟨hskip.symm, pushComment_of_skip hskip⟩
  · obtain ⟨hafter, hopened⟩ := not_or.mp hskip
    have hopened : a.opened = some .wordGroups := by simpa using hopened
    refine Or.inr ⟨hopened, _, _, ?_, pushComment_of_opened (by simpa using hafter) hopened⟩
    intro c hc
    rw [List.mem_append, List.mem_append, List.mem_singleton] at hc
    rcases hc with (hc | hc) | hc
    · exact Or.inl hc
    · split at hc
      · exact Or.inr (Or.inl (List.eq_of_mem_replicate hc))
      · cases hc
    · exact Or.inr (Or.inr hc)

/-! ## Lines of groups -/

theorem opened_begin (hopened : a.opened ≠ some .globalFilter) (g : OpenGroup) :
    (a.begin g).opened = some .wordGroups := by
  cases hsection : a.opened with
  | none => simp [begin, enter, hsection]
  | some opened =>
      cases opened with
      | globalFilter => exact absurd hsection hopened
      | wordGroups => simp [begin, enter, hsection]

theorem exists_ofClass? (h : LineClass.IsContent (Text.trim content)) :
    ∃ kind, OpenKind.ofClass? (LineClass.ofContent content) = some kind := by
  rcases LineClass.isContent_iff.mp h with ⟨n, hn⟩ | ⟨pattern, target, harrow⟩ | ⟨k, hk⟩
  · exact ⟨.named n [], by rw [hn]; rfl⟩
  · exact ⟨.aliases [⟨pattern, target⟩], by rw [harrow]; rfl⟩
  · exact ⟨.plain [k], by rw [hk]; rfl⟩

theorem push_extend {g : OpenGroup} {kind : OpenKind}
    (hopened : a.opened ≠ some .globalFilter) (hleaf : a.leaf = some g)
    (hkind : g.kind.extend? (LineClass.ofContent l.content) = some kind) :
    a.push l = { a.enter with leaf := some { g with kind } } := by
  obtain ⟨start, comments, kind'⟩ := g
  cases hclass : LineClass.ofContent l.content with
  | keyword keyword =>
      cases kind' with
      | plain keywords =>
          obtain rfl : OpenKind.plain (keywords ++ [keyword]) = kind := by
            simpa [OpenKind.extend?, hclass] using hkind
          simp [push, hclass, hopened, pushKeyword, enter, hleaf]
      | named name keywords =>
          obtain rfl : OpenKind.named name (keywords ++ [keyword]) = kind := by
            simpa [OpenKind.extend?, hclass] using hkind
          simp [push, hclass, hopened, pushKeyword, enter, hleaf]
      | aliases items => simp [OpenKind.extend?, hclass] at hkind
  | arrow pattern target =>
      cases kind' with
      | aliases items =>
          obtain rfl : OpenKind.aliases (items ++ [⟨pattern, target⟩]) = kind := by
            simpa [OpenKind.extend?, hclass] using hkind
          simp [push, hclass, hopened, pushAlias, enter, hleaf]
      | plain keywords => simp [OpenKind.extend?, hclass] at hkind
      | named name keywords => simp [OpenKind.extend?, hclass] at hkind
  | name name => simp [OpenKind.extend?, hclass] at hkind
  | blank => simp [OpenKind.extend?, hclass] at hkind
  | comment written => simp [OpenKind.extend?, hclass] at hkind
  | sentinel opened => simp [OpenKind.extend?, hclass] at hkind

theorem push_open {kind : OpenKind} (hopened : a.opened ≠ some .globalFilter)
    (hkind : OpenKind.ofClass? (LineClass.ofContent l.content) = some kind)
    (hleaf : ∀ g ∈ a.leaf, g.kind.extend? (LineClass.ofContent l.content) = none) :
    a.push l = a.closeLeaf.begin ⟨l.index, a.pending, kind⟩ := by
  have hopen : a.enter.openLeaf l.index kind = a.closeLeaf.begin ⟨l.index, a.pending, kind⟩ := by
    cases hopenLeaf : a.leaf <;> simp [openLeaf, begin, closeLeaf, enter, hopenLeaf]
  rw [← hopen]
  cases hclass : LineClass.ofContent l.content with
  | name name =>
      obtain rfl : OpenKind.named name [] = kind := by
        simpa [OpenKind.ofClass?, hclass] using hkind
      simp [push, hclass, hopened, pushName]
  | arrow pattern target =>
      obtain rfl : OpenKind.aliases [⟨pattern, target⟩] = kind := by
        simpa [OpenKind.ofClass?, hclass] using hkind
      cases hopenLeaf : a.leaf with
      | none => simp [push, hclass, hopened, pushAlias, enter, hopenLeaf]
      | some g =>
          obtain ⟨start, comments, kind'⟩ := g
          have hextend := hleaf _ hopenLeaf
          cases kind' with
          | aliases items => simp [OpenKind.extend?, hclass] at hextend
          | plain keywords => simp [push, hclass, hopened, pushAlias, enter, hopenLeaf]
          | named name keywords =>
              simp [push, hclass, hopened, pushAlias, enter, hopenLeaf]
  | keyword keyword =>
      obtain rfl : OpenKind.plain [keyword] = kind := by
        simpa [OpenKind.ofClass?, hclass] using hkind
      cases hopenLeaf : a.leaf with
      | none => simp [push, hclass, hopened, pushKeyword, enter, hopenLeaf]
      | some g =>
          obtain ⟨start, comments, kind'⟩ := g
          have hextend := hleaf _ hopenLeaf
          cases kind' with
          | aliases items =>
              simp [push, hclass, hopened, pushKeyword, enter, hopenLeaf]
          | plain keywords => simp [OpenKind.extend?, hclass] at hextend
          | named name keywords => simp [OpenKind.extend?, hclass] at hextend
  | blank => simp [OpenKind.ofClass?, hclass] at hkind
  | comment written => simp [OpenKind.ofClass?, hclass] at hkind
  | sentinel opened => simp [OpenKind.ofClass?, hclass] at hkind

/-- Outside the global section a line of content joins the open group or opens
one. -/
theorem push_content_cases (hcontent : LineClass.IsContent (Text.trim l.content))
    (hopened : a.opened ≠ some .globalFilter) :
    (∃ g kind, a.leaf = some g ∧ g.kind.extend? (LineClass.ofContent l.content) = some kind ∧
        a.push l = { a.enter with leaf := some { g with kind } }) ∨
      ∃ kind, OpenKind.ofClass? (LineClass.ofContent l.content) = some kind ∧
        (∀ g ∈ a.leaf, g.kind.extend? (LineClass.ofContent l.content) = none) ∧
        a.push l = a.closeLeaf.begin ⟨l.index, a.pending, kind⟩ := by
  obtain ⟨kind, hkind⟩ := exists_ofClass? hcontent
  by_cases hextend : ∀ g ∈ a.leaf, g.kind.extend? (LineClass.ofContent l.content) = none
  · exact Or.inr ⟨kind, hkind, hextend, push_open hopened hkind hextend⟩
  · simp only [not_forall] at hextend
    obtain ⟨g, hleaf, hsome⟩ := hextend
    obtain ⟨kind', hkind'⟩ := Option.ne_none_iff_exists'.mp hsome
    exact Or.inl ⟨g, kind', hleaf, hkind', push_extend hopened hleaf hkind'⟩

theorem pushContent_extend {g : OpenGroup} {kind : OpenKind}
    (hopened : a.opened ≠ some .globalFilter) (hleaf : a.leaf = some g)
    (hkind : g.kind.extend? (LineClass.ofContent content) = some kind) :
    a.pushContent content = { a.enter with leaf := some { g with kind } } :=
  push_extend hopened hleaf hkind

theorem pushContent_open {kind : OpenKind} (hopened : a.opened ≠ some .globalFilter)
    (hkind : OpenKind.ofClass? (LineClass.ofContent content) = some kind)
    (hleaf : ∀ g ∈ a.leaf, g.kind.extend? (LineClass.ofContent content) = none) :
    a.pushContent content = a.closeLeaf.begin ⟨0, a.pending, kind⟩ :=
  push_open hopened hkind hleaf

end Lines

end Assembly

end Marginalia.Keywords

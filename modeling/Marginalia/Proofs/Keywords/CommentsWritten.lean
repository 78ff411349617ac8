import Mathlib.Data.Multiset.AddSub
import Marginalia.Proofs.Keywords.Comments
import Marginalia.Proofs.Keywords.Origin

/-!
# Comments that are written

While a text is read, the groups and the comments that wait are what
`Spot.written` tells of the lines so far, provided that no sentinel comes before
the next line of content.
-/

namespace Marginalia.Keywords

/-- Comments as they are read back, without the blank lines. -/
def noteMarks (cs : List Text) : List LineClass :=
  (cs.filter (· ≠ [])).map LineClass.comment

theorem noteMarks_append (cs ds : List Text) :
    noteMarks (cs ++ ds) = noteMarks cs ++ noteMarks ds := by
  simp [noteMarks]

theorem noteMarks_replicate (n : Nat) : noteMarks (List.replicate n []) = [] := by
  simp [noteMarks]

/-- A group with its comments as it is read back, without blank lines. -/
def Group.marks (g : Group) : List LineClass :=
  noteMarks g.comments ++ g.kind.classes.map LineClass.rewritten

/-- A list as it is read back, without words and blank lines. -/
def KeywordList.marks (l : KeywordList) : List LineClass :=
  l.groups.flatMap Group.marks ++ noteMarks l.trailing

namespace Assembly

variable {a b : Assembly}

/-- The groups so far as they are read back. -/
def marks (a : Assembly) : List LineClass :=
  (a.list.groups ++ a.run).flatMap Group.marks ++
    a.leaf.toList.flatMap fun g => noteMarks g.comments ++ g.kind.close.classes.map .rewritten

theorem flatMap_marks_numberRun (cluster : Nat) (run : List Group) :
    (numberRun cluster run).flatMap Group.marks = run.flatMap Group.marks := by
  rw [List.flatMap_def, List.flatMap_def, map_numberRun fun _ _ => rfl]

@[simp] theorem marks_closeLeaf : a.closeLeaf.marks = a.marks := by
  cases hleaf : a.leaf with
  | none => rw [closeLeaf_of_leaf_eq_none hleaf]
  | some g => simp [marks, closeLeaf, hleaf, Group.marks]

@[simp] theorem marks_flushRun : a.flushRun.marks = a.marks := by
  simp [marks, flushRun, flatMap_marks_numberRun]

theorem marks_begin (h : a.leaf = none) (g : OpenGroup) :
    (a.begin g).marks =
      a.marks ++ (noteMarks g.comments ++ g.kind.close.classes.map .rewritten) := by
  simp [marks, begin, enter, h]

/-- What is written of the lines so far, given the lines that follow: what waits
is not written when a sentinel comes first. -/
def ahead (a : Assembly) (cs : List LineClass) : List LineClass :=
  a.marks ++ if sentinelNext cs then [] else noteMarks a.pending

/-- The assembly stands at a spot, and what waits there is below the groups so
far. -/
structure At (a : Assembly) (s : Spot) : Prop where
  opened : s.opened = a.opened
  direct : s.direct = a.afterSentinel
  waits : a.pending ≠ [] → a.opened = some .wordGroups ∧ a.leaf = none

section Steps

variable {s : Spot} {l : Line} (cs : List LineClass)

/-- With no group open, anything may wait among the groups. -/
theorem at_waiting (hleaf : a.leaf = none) (hopened : a.opened = some .wordGroups)
    (hspot : s.opened = some .wordGroups) (hdirect : s.direct = false) (pending : List Text)
    (gap : Nat) : (a.waiting pending gap).At s :=
  ⟨hspot.trans hopened.symm, hdirect, fun _ => ⟨hopened, hleaf⟩⟩

theorem ahead_waiting (pending : List Text) (gap : Nat) :
    (a.waiting pending gap).ahead cs =
      a.marks ++ if sentinelNext cs then [] else noteMarks pending := rfl

theorem at_pushSentinel (a : Assembly) (s : Spot) (opened : Section) :
    (a.pushSentinel opened).At (s.below (.sentinel opened)) ∧
      (a.pushSentinel opened).ahead cs =
        a.ahead (.sentinel opened :: cs) ++ s.written (.sentinel opened) cs := by
  have hmarks : (a.pushSentinel opened).marks = a.marks := by
    calc (a.pushSentinel opened).marks
        _ = a.closeLeaf.flushRun.marks := rfl
        _ = a.marks := by rw [marks_flushRun, marks_closeLeaf]
  have hpending : (a.pushSentinel opened).pending = [] := rfl
  refine ⟨⟨rfl, rfl, fun hne => absurd hpending hne⟩, ?_⟩
  simp [ahead, hmarks, hpending, sentinelNext, Spot.written, noteMarks]

theorem At.pushBlank (h : a.At s) :
    a.pushBlank.At (s.below .blank) ∧
      a.pushBlank.ahead cs = a.ahead (.blank :: cs) ++ s.written .blank cs := by
  by_cases hopened : a.opened = some .wordGroups
  · have hspot : (s.below .blank).opened = some .wordGroups := h.opened.trans hopened
    have hopened' : a.closeLeaf.flushRun.opened = some .wordGroups := by simp [flushRun, hopened]
    have hleaf : a.closeLeaf.flushRun.leaf = none := leaf_closeLeaf a
    by_cases hpending : a.pending = []
    · rw [pushBlank_of_pending_eq_nil hopened hpending, ahead_waiting, marks_flushRun,
        marks_closeLeaf]
      refine ⟨at_waiting hleaf hopened' hspot rfl _ _, ?_⟩
      simp [ahead, sentinelNext, Spot.written, hpending]
    · rw [pushBlank_of_pending_ne_nil hopened hpending, ahead_waiting, marks_flushRun,
        marks_closeLeaf]
      refine ⟨at_waiting hleaf hopened' hspot rfl _ _, ?_⟩
      simp [ahead, sentinelNext, Spot.written, noteMarks]
  · rw [pushBlank_of_opened_ne hopened]
    refine ⟨⟨h.opened, rfl, h.waits⟩, ?_⟩
    rw [Spot.written, List.append_nil]
    rfl

theorem At.pushComment (h : a.At s) {text : Text} (htext : text ≠ []) :
    (a.pushComment text).At (s.below (.comment text)) ∧
      (a.pushComment text).ahead cs =
        a.ahead (.comment text :: cs) ++ s.written (.comment text) cs := by
  have hbelow : s.below (.comment text) = s := rfl
  rw [hbelow]
  by_cases hskip : a.afterSentinel = true ∨ a.opened ≠ some .wordGroups
  · rw [pushComment_of_skip hskip]
    refine ⟨h, ?_⟩
    have hnot : ¬(s.opened = some .wordGroups ∧ s.direct = false ∧ sentinelNext cs = false) := by
      rintro ⟨hopened, hdirect, -⟩
      rw [h.opened] at hopened
      rw [h.direct] at hdirect
      rcases hskip with hafter | hne
      · rw [hdirect] at hafter
        cases hafter
      · exact hne hopened
    rw [Spot.written, if_neg hnot, List.append_nil]
    rfl
  · obtain ⟨hafter, hopened⟩ := not_or.mp hskip
    have hopened : a.opened = some .wordGroups := not_not.mp hopened
    have hafter : a.afterSentinel = false := Bool.eq_false_iff.mpr hafter
    have hspot := h.opened.trans hopened
    have hdirect := h.direct.trans hafter
    rw [pushComment_of_opened hafter hopened, ahead_waiting, marks_closeLeaf]
    refine ⟨at_waiting (leaf_closeLeaf a) ((opened_closeLeaf a).trans hopened) hspot hdirect _ _,
      ?_⟩
    have hblanks : noteMarks (if a.closeLeaf.hasGroups then List.replicate a.gap [] else []) =
        [] := by
      split
      · exact noteMarks_replicate a.gap
      · rfl
    have htext' : noteMarks [text] = [.comment text] := by simp [noteMarks, htext]
    rw [noteMarks_append, noteMarks_append, hblanks, htext', List.append_nil]
    cases hnext : sentinelNext cs <;>
      simp [ahead, sentinelNext, Spot.written, hspot, hdirect, hnext]

/-- Nothing waits where a word is read, or in an open group. -/
theorem At.pending_eq_nil (h : a.At s) (hwhere : a.opened ≠ some .wordGroups ∨ a.leaf ≠ none) :
    a.pending = [] := by
  by_contra hne
  obtain ⟨hopened, hleaf⟩ := h.waits hne
  exact hwhere.elim (· hopened) (· hleaf)

theorem At.push_content (h : a.At s) (hcontent : LineClass.IsContent (Text.trim l.content)) :
    (a.push l).At (s.below (classOf l)) ∧
      (a.push l).ahead cs = a.ahead (classOf l :: cs) ++ s.written (classOf l) cs := by
  have hc := isContent_classOf_iff.mpr hcontent
  have hdirect := s.direct_below_of_isContent hc
  have hopen : (s.below (classOf l)).opened = some (a.opened.getD .wordGroups) := by
    rw [Spot.opened_below, Section.openBelow_of_isContent hc, h.opened]
  obtain ⟨-, -, hwritten⟩ := s.fates_of_isContent cs hc
  have hahead : a.ahead (classOf l :: cs) = a.marks ++ noteMarks a.pending := by
    simp [ahead, sentinelNext_of_isContent hc]
  rw [hahead, hwritten, h.opened]
  by_cases hglobal : a.opened = some .globalFilter
  · have hpending := h.pending_eq_nil (Or.inl (by simp [hglobal]))
    have hmarks : (a.pushWord (Text.trim l.content)).marks = a.marks := rfl
    have hpending' : (a.pushWord (Text.trim l.content)).pending = a.pending := rfl
    rw [push_word hcontent hglobal]
    refine ⟨⟨?_, hdirect, h.waits⟩, ?_⟩
    · rw [hopen, hglobal]
      exact hglobal.symm
    · simp [ahead, hmarks, hpending', hpending, hglobal, noteMarks]
  · rcases push_content_cases hcontent hglobal with
      ⟨g, kind, hleaf, hkind, hpush⟩ | ⟨kind, hkind, -, hpush⟩
    · have hpending := h.pending_eq_nil (Or.inr (by simp [hleaf]))
      have hclasses := OpenKind.classes_close_extend? hkind
      rw [hpush]
      refine ⟨⟨hopen, hdirect, fun hne => absurd hpending hne⟩, ?_⟩
      simp [ahead, marks, enter, hleaf, hpending, hglobal, noteMarks, hclasses, classOf]
    · have hclasses := OpenKind.classes_close_ofClass? hkind
      rw [hpush]
      refine ⟨⟨?_, hdirect, fun hne => absurd rfl hne⟩, ?_⟩
      · rw [hopen, ← opened_closeLeaf a]
        rfl
      · have hmarks := marks_begin a.leaf_closeLeaf ⟨l.index, a.pending, kind⟩
        rw [marks_closeLeaf, hclasses] at hmarks
        have hpending : (a.closeLeaf.begin ⟨l.index, a.pending, kind⟩).pending = [] := rfl
        simp [ahead, hmarks, hpending, hglobal, noteMarks, classOf]

theorem At.push (h : a.At s) :
    (a.push l).At (s.below (classOf l)) ∧
      (a.push l).ahead cs = a.ahead (classOf l :: cs) ++ s.written (classOf l) cs := by
  rcases LineClass.ofContent_cases l.content with
    ⟨-, hblank⟩ | ⟨opened, -, hsentinel⟩ | ⟨hhead, hcomment⟩ | hcontent
  · rw [push_blank hblank, classOf, hblank]
    exact h.pushBlank cs
  · rw [push_sentinel hsentinel, classOf, hsentinel]
    exact at_pushSentinel cs a s opened
  · rw [push_comment hcomment, classOf, hcomment]
    apply h.pushComment cs
    intro hnil
    rw [← Text.trim_trimEnd, hnil] at hhead
    cases hhead
  · exact h.push_content cs hcontent

/-- What is written of some lines more, given the lines that follow. -/
theorem At.foldl_push (h : a.At s) (ls : List Line) :
    (ls.foldl Assembly.push a).ahead [] =
      a.ahead (ls.map classOf) ++ s.walk Spot.written (ls.map classOf) := by
  induction ls generalizing a s with
  | nil => simp [Spot.walk]
  | cons l ls ih =>
      obtain ⟨hnext, hpush⟩ := h.push (l := l) (ls.map classOf)
      rw [List.foldl_cons, ih hnext, hpush, List.map_cons, Spot.walk, List.append_assoc]

end Steps

/-- The end of the text is no sentinel, so what waits is written there. -/
theorem marks_finish (a : Assembly) : a.finish.marks = a.ahead [] := by
  have hgroups : a.finish.groups.flatMap Group.marks = a.marks := by
    rw [← marks_closeLeaf, ← marks_flushRun]
    simp [finish, marks, flushRun]
  have htrailing : noteMarks a.finish.trailing = noteMarks a.pending := by
    rcases trailing_finish a with hsame | ⟨-, hpending⟩
    · rw [hsame]
    · rw [hpending]
      rfl
  rw [KeywordList.marks, hgroups, htrailing]
  rfl

end Assembly

namespace KeywordList

/-- A list that was read is written as `Spot.written` tells. -/
theorem marks_ofText (t : Text) :
    (ofText t).marks = Spot.start.walk Spot.written (t.lines.map classOf) := by
  have hstart : Assembly.empty.At Spot.start := ⟨rfl, rfl, fun hne => absurd rfl hne⟩
  rw [ofText, Assembly.marks_finish, hstart.foldl_push]
  simp [Assembly.ahead, Assembly.marks, Assembly.empty, KeywordList.empty, noteMarks]

end KeywordList

/-! ## Lines that are read back -/

/-- The classes of some lines, without the blank ones. -/
def lineMarks (ls : List Text) : List LineClass :=
  (ls.map LineClass.ofContent).filter (· ≠ .blank)

theorem lineMarks_append (ls ls' : List Text) :
    lineMarks (ls ++ ls') = lineMarks ls ++ lineMarks ls' := by
  simp [lineMarks]

theorem lineMarks_blank : lineMarks [[]] = [] := by
  decide

theorem commentsIn_filter (opened : Option Section) (cs : List LineClass) :
    commentsIn opened (cs.filter (· ≠ .blank)) = commentsIn opened cs := by
  induction cs generalizing opened with
  | nil => rfl
  | cons c cs ih =>
      by_cases hc : c = .blank
      · subst hc
        simpa [commentsIn, LineClass.comment?, Section.openBelow] using ih opened
      · rw [List.filter_cons_of_pos (by simpa using hc), commentsIn, commentsIn, ih]

theorem lineMarks_notes {cs : List Text} (h : ∀ c ∈ cs, IsNote c) :
    lineMarks cs = noteMarks cs := by
  induction cs with
  | nil => rfl
  | cons c cs ih =>
      obtain ⟨hc, hcs⟩ := List.forall_mem_cons.mp h
      rw [← List.singleton_append, lineMarks_append, noteMarks_append, ih hcs]
      rcases hc with rfl | hc
      · rw [lineMarks_blank]
        rfl
      · have hne := Assembly.ne_nil_of_readsAs_comment hc
        simp [lineMarks, noteMarks, hc.ofContent_eq, hne]

theorem noteMarks_dropWhile (cs : List Text) :
    noteMarks (cs.dropWhile (·.isEmpty)) = noteMarks cs := by
  induction cs with
  | nil => rfl
  | cons c cs ih =>
      cases c with
      | nil => simpa [noteMarks] using ih
      | cons d c => rfl

theorem lineMarks_map {α : Type} {xs : List α} {line : α → Text} {c : α → LineClass}
    (h : ∀ x ∈ xs, (c x).isContent = true ∧ LineClass.ofContent (line x) = (c x).rewritten) :
    lineMarks (xs.map line) = (xs.map c).map .rewritten := by
  have hclasses : (xs.map line).map LineClass.ofContent = (xs.map c).map .rewritten := by
    rw [List.map_map, List.map_map]
    exact List.map_congr_left fun x hx => (h x hx).2
  rw [lineMarks, hclasses, List.filter_eq_self]
  intro d hd
  rw [List.map_map] at hd
  obtain ⟨x, hx, rfl⟩ := List.mem_map.mp hd
  simpa using LineClass.rewritten_ne_blank (h x hx).1

/-- The lines of a group are read back as they were read, names apart. -/
theorem GroupKind.lineMarks_lines {kind : GroupKind}
    (h : ∀ c ∈ kind.classes, ∃ content, '\n' ∉ content ∧ LineClass.ofContent content = c) :
    lineMarks kind.lines = kind.classes.map .rewritten := by
  have hkeywords : ∀ keywords : List Text, (∀ k ∈ keywords, .keyword k ∈ kind.classes) →
      lineMarks keywords = (keywords.map .keyword).map .rewritten := by
    intro keywords hmem
    have hread := @lineMarks_map _ keywords id .keyword fun k hk => by
      obtain ⟨content, hlf, hclass⟩ := h _ (hmem k hk)
      exact ⟨rfl, (readsAs_keyword hlf hclass).ofContent_eq⟩
    rwa [List.map_id] at hread
  have haliases : ∀ items : List Alias,
      (∀ a ∈ items, .arrow a.pattern a.target ∈ kind.classes) →
      lineMarks (items.map Alias.line) =
        (items.map fun a => .arrow a.pattern a.target).map .rewritten := by
    intro items hmem
    refine lineMarks_map fun a ha => ?_
    obtain ⟨content, hlf, hclass⟩ := h _ (hmem a ha)
    exact ⟨rfl, (readsAs_arrow hlf hclass).ofContent_eq⟩
  cases kind with
  | plain keywords => exact hkeywords keywords fun k hk => List.mem_map_of_mem hk
  | named name keywords =>
      have hname : lineMarks ['[' :: name ++ [']']] = [LineClass.rewritten (.name name)] :=
        @lineMarks_map _ [name] (fun n => '[' :: (n ++ [']'])) .name fun n _ => ⟨rfl, rfl⟩
      have hrest := hkeywords keywords fun k hk => List.mem_cons_of_mem _ (List.mem_map_of_mem hk)
      rw [lines, ← List.singleton_append, lineMarks_append, hname, hrest]
      rfl
  | single item =>
      refine haliases [item] fun a ha => ?_
      obtain rfl := List.mem_singleton.mp ha
      exact List.mem_singleton_self _
  | cluster items => exact haliases items fun a ha => List.mem_map.mpr ⟨a, ha, rfl⟩

namespace Group

variable {g : Group} {gs : List Group}

theorem lineMarks_block {cs : List Text} (hcs : ∀ c ∈ cs, IsNote c)
    (hsame : noteMarks cs = noteMarks g.comments)
    (hlines : lineMarks g.kind.lines = g.kind.classes.map .rewritten) (next : Option Group) :
    lineMarks (g.block cs next) = g.marks := by
  have hblank : lineMarks (if g.blankAfter next then [[]] else []) = [] := by
    split
    · exact lineMarks_blank
    · rfl
  rw [block, lineMarks_append, lineMarks_append, lineMarks_notes hcs, hsame, hlines, hblank,
    List.append_nil, marks]

theorem lineMarks_blocks (hcomments : ∀ g ∈ gs, ∀ c ∈ g.comments, IsNote c)
    (hlines : ∀ g ∈ gs, lineMarks g.kind.lines = g.kind.classes.map .rewritten) :
    lineMarks (blocks gs) = gs.flatMap marks := by
  induction gs with
  | nil => rfl
  | cons g gs ih =>
      obtain ⟨hcomments, hcomments'⟩ := List.forall_mem_cons.mp hcomments
      obtain ⟨hlines, hlines'⟩ := List.forall_mem_cons.mp hlines
      rw [blocks, lineMarks_append, lineMarks_block hcomments rfl hlines, ih hcomments' hlines',
        List.flatMap_cons]

end Group

namespace KeywordList

variable {l : KeywordList}

theorem lineMarks_groupLines (hcomments : ∀ g ∈ l.groups, ∀ c ∈ g.comments, IsNote c)
    (hlines : ∀ g ∈ l.groups, lineMarks g.kind.lines = g.kind.classes.map .rewritten) :
    lineMarks l.groupLines = l.groups.flatMap Group.marks := by
  unfold groupLines
  split
  · next hnil =>
      rw [hnil]
      rfl
  · next g gs hcons =>
      rw [hcons] at hcomments hlines ⊢
      obtain ⟨hcomments, hcomments'⟩ := List.forall_mem_cons.mp hcomments
      obtain ⟨hlines, hlines'⟩ := List.forall_mem_cons.mp hlines
      have hdropped : ∀ c ∈ g.comments.dropWhile (·.isEmpty), IsNote c := fun c hc =>
        hcomments c ((List.dropWhile_suffix _).subset hc)
      rw [lineMarks_append, Group.lineMarks_block hdropped (noteMarks_dropWhile _) hlines,
        Group.lineMarks_blocks hcomments' hlines', List.flatMap_cons]

/-- A list that was read is read back from the lines below the second
sentinel. -/
theorem lineMarks_inside_ofText (t : Text) : lineMarks (ofText t).inside = (ofText t).marks := by
  obtain ⟨-, hcomments, htrailing⟩ := keeps_ofText t
  have hlines : ∀ g ∈ (ofText t).groups,
      lineMarks g.kind.lines = g.kind.classes.map .rewritten := fun g hg =>
    GroupKind.lineMarks_lines fun c hc => exists_content_of_mem_classes hg hc
  have hgap : lineMarks (if (ofText t).groups.isEmpty && (ofText t).trailing.isEmpty then []
      else [[]]) = [] := by
    split
    · rfl
    · exact lineMarks_blank
  rw [inside, lineMarks_append, lineMarks_append, hgap, List.nil_append,
    lineMarks_groupLines hcomments hlines, lineMarks_notes htrailing, marks]

end KeywordList

/-! ## Comments of a written text -/

section

variable {opened : Option Section}

/-- Outside the groups, lines that open no section are passed over. -/
theorem commentsIn_append_of_outside (hout : opened ≠ some .wordGroups) {cs : List LineClass}
    (h : ∀ c ∈ cs, Section.openBelow opened c = opened) (ds : List LineClass) :
    commentsIn opened (cs ++ ds) = commentsIn opened ds := by
  induction cs with
  | nil => rfl
  | cons c cs ih =>
      obtain ⟨hc, hcs⟩ := List.forall_mem_cons.mp h
      rw [List.cons_append, commentsIn, if_neg hout, hc, ih hcs, List.nil_append]

theorem commentsIn_sentinel (next : Section) (cs : List LineClass) :
    commentsIn opened (.sentinel next :: cs) = commentsIn (some next) cs := by
  simp [commentsIn, LineClass.comment?, Section.openBelow]

theorem commentsIn_comments (cs : List Text) (ds : List LineClass) :
    commentsIn (some .wordGroups) (cs.map .comment ++ ds) =
      cs ++ commentsIn (some .wordGroups) ds := by
  induction cs with
  | nil => rfl
  | cons c cs ih =>
      rw [List.map_cons, List.cons_append, commentsIn, Section.openBelow, ih]
      rfl

end

theorem map_ofContent_comments {cs : List Text} (h : ∀ c ∈ cs, ReadsAs c (.comment c)) :
    cs.map LineClass.ofContent = cs.map .comment :=
  List.map_congr_left fun c hc => (h c hc).ofContent_eq

namespace KeywordList

variable {l : KeywordList}

/-- The comments among the groups of a list that is written are those below the
second sentinel. -/
theorem commentsIn_lines {y : Layout} {P : Text → Prop} (hy : y.Copies P)
    (hwords : ∀ w ∈ l.globalFilter, IsWord w) :
    commentsIn none ((l.lines y).map LineClass.ofContent) =
      y.groupsComments ++ commentsIn (some .wordGroups) (lineMarks l.inside) := by
  have hsentinel : ∀ opened : Section,
      LineClass.ofContent opened.sentinel = .sentinel opened := by
    intro opened
    cases opened <;> decide
  have hheader : ∀ c ∈ y.header.map LineClass.ofContent, Section.openBelow none c = none := by
    rw [List.forall_mem_map]
    intro line hline
    rcases (hy.header line hline).2 with hblank | hcomment
    · simp [LineClass.ofContent, hblank, Section.openBelow]
    · rw [LineClass.ofContent_eq_comment_iff.mpr ⟨hcomment, rfl⟩]
      rfl
  have hglobal : ∀ c ∈ y.globalComments.map .comment ++
      (l.globalFilter ++ [[]]).map LineClass.ofContent,
      Section.openBelow (some .globalFilter) c = some .globalFilter := by
    rw [List.map_append, List.forall_mem_append, List.forall_mem_append, List.forall_mem_map,
      List.forall_mem_map]
    refine ⟨fun _ _ => rfl, fun w hw => ?_, List.forall_mem_singleton.mpr rfl⟩
    have hcontent : LineClass.IsContent (Text.trim w) := by
      rw [(hwords w hw).trim_eq]
      exact (hwords w hw).isContent
    exact Section.openBelow_of_isContent (LineClass.isContent_ofContent_iff.mpr hcontent) _
  have hclasses : (l.lines y).map LineClass.ofContent =
      y.header.map LineClass.ofContent ++ .sentinel .globalFilter ::
        (y.globalComments.map .comment ++ (l.globalFilter ++ [[]]).map LineClass.ofContent ++
          .sentinel .wordGroups ::
            (y.groupsComments.map .comment ++ l.inside.map LineClass.ofContent)) := by
    rw [← map_ofContent_comments hy.globalComments, ← map_ofContent_comments hy.groupsComments,
      lines_eq]
    simp [hsentinel]
  rw [hclasses, commentsIn_append_of_outside (by simp) hheader, commentsIn_sentinel,
    commentsIn_append_of_outside (by simp) hglobal, commentsIn_sentinel, commentsIn_comments,
    lineMarks, commentsIn_filter]

/-- The comments among the groups of a text that was read and written are those
that were copied and those that were written. -/
theorem groupComments_toText (t : Text) :
    groupComments ((ofText t).toText (some t)) =
      Spot.start.walk Spot.copied (t.lines.map classOf) ++
        commentsIn (some .wordGroups) (Spot.start.walk Spot.written (t.lines.map classOf)) := by
  have hwords := (keeps_ofText t).1
  have hy := copies_layout t
  have hcontents : (Text.lines ((ofText t).toText (some t))).map Line.content =
      (ofText t).lines (Layout.ofText t).reread :=
    map_content_unlines hwords (fun line hline => (isInput_of_mem_inside t line hline).2) hy
  have hclasses : (Text.lines ((ofText t).toText (some t))).map classOf =
      ((ofText t).lines (Layout.ofText t).reread).map LineClass.ofContent := by
    rw [← hcontents, List.map_map]
    rfl
  rw [groupComments, hclasses, commentsIn_lines (Layout.copies_reread hy) hwords,
    lineMarks_inside_ofText, marks_ofText, ← Layout.groupsComments_ofText]
  rfl

/-- Reading a text and writing it again keeps the comments among its groups,
apart from those that are lost; so it keeps all of them exactly when none is
lost. -/
theorem groupComments_toText_ofText (t : Text) :
    let u := (ofText t).toText (some t)
    (groupComments u : Multiset Text) + lostComments t = groupComments t ∧
      ((groupComments u : Multiset Text) = groupComments t ↔ lostComments t = []) := by
  intro u
  have hall : (groupComments u : Multiset Text) + lostComments t = groupComments t := by
    rw [Multiset.coe_add, Multiset.coe_eq_coe, groupComments_toText]
    exact Spot.start.perm_commentsIn (t.lines.map classOf)
  refine ⟨hall, fun hsame => ?_, fun hlost => ?_⟩
  · have hnone : (groupComments u : Multiset Text) + lostComments t = groupComments u + 0 := by
      rw [hall, hsame, Multiset.add_zero]
    exact (Multiset.coe_eq_zero _).mp (Multiset.add_right_inj.mp hnone)
  · rwa [hlost, Multiset.coe_nil, Multiset.add_zero] at hall

/-- A comment that waits when a sentinel comes is lost. -/
theorem groupComments_ne_of_sentinel :
    let t := "[WORD_GROUPS]\n\nA\n\n# c\n\n[GLOBAL_FILTER]\nx\n".toList
    let u := (ofText t).toText (some t)
    groupComments t = ["# c".toList] ∧ groupComments u = [] ∧
      (groupComments u : Multiset Text) ≠ groupComments t := by
  decide +kernel

/-- Written without its white space, a name may hide the comments below it. -/
example : lostComments "[WORD_GROUPS]\n[ GLOBAL_FILTER ]\n\n# c\nA\n".toList =
    ["# c".toList] := by
  decide +kernel

end KeywordList

end Marginalia.Keywords

import Marginalia.Proofs.Keywords.Coverage
import Marginalia.Proofs.Keywords.Layout

/-!
# What becomes of comments

A comment of the groups has one of three fates when a text is read and written
again.  Directly below a sentinel it is copied below the sentinel of the groups.
Elsewhere it waits for the group below it or for the end, and is written there.
It is lost when a sentinel comes first, or when it would be written below a name
that spells the sentinel of the global section.

`Spot` is what these fates depend on, and `perm_commentsIn` says that there is
no other.
-/

namespace Marginalia.Keywords

namespace LineClass

def comment? : LineClass → Option Text
  | comment written => some written
  | _ => none

/-- The class of the line that a line of a group is written as.  The white space
around a name is not written, so a name may become a sentinel. -/
def rewritten : LineClass → LineClass
  | name n => ofContent ('[' :: (n ++ [']']))
  | c => c

theorem isContent_ofContent_iff {content : Text} :
    (ofContent content).isContent = true ↔ IsContent (Text.trim content) :=
  isContent_classOf_iff (l := ⟨0, 0, content, .none⟩)

theorem comment?_of_isContent {c : LineClass} (h : c.isContent = true) : c.comment? = none := by
  cases c <;> first | rfl | cases h

end LineClass

/-- The section that is open below a line; content above the first sentinel
opens the groups. -/
def Section.openBelow (opened : Option Section) (c : LineClass) : Option Section :=
  match c with
  | .sentinel next => some next
  | .blank | .comment _ => opened
  | _ => some (opened.getD .wordGroups)

/-- The comments in the sections of groups among some lines, the first one being
in the section `opened`. -/
def commentsIn (opened : Option Section) : List LineClass → List Text
  | [] => []
  | c :: cs =>
    (if opened = some .wordGroups then c.comment?.toList else []) ++
      commentsIn (Section.openBelow opened c) cs

/-- The comments in the sections of groups of a text. -/
def groupComments (t : Text) : List Text :=
  commentsIn none (t.lines.map classOf)

/-- Whether the first line that is neither blank nor a comment is a sentinel. -/
def sentinelNext : List LineClass → Bool
  | .blank :: cs | .comment _ :: cs => sentinelNext cs
  | .sentinel _ :: _ => true
  | _ => false

theorem Section.openBelow_of_isContent {c : LineClass} (hc : c.isContent = true)
    (opened : Option Section) :
    Section.openBelow opened c = some (opened.getD .wordGroups) := by
  cases c <;> first | rfl | cases hc

theorem sentinelNext_of_isContent {c : LineClass} (hc : c.isContent = true) (cs : List LineClass) :
    sentinelNext (c :: cs) = false := by
  cases c <;> first | rfl | cases hc

structure Spot where
  opened : Option Section
  /-- Whether the place is in the comments directly below a sentinel. -/
  direct : Bool
  /-- The section that is open where the lines of groups are written. -/
  target : Section

namespace Spot

def start : Spot :=
  ⟨none, false, .wordGroups⟩

def below (s : Spot) (c : LineClass) : Spot where
  opened := Section.openBelow s.opened c
  direct :=
    match c with
    | .sentinel _ => true
    | .comment _ => s.direct
    | _ => false
  target :=
    if c.isContent ∧ s.opened ≠ some .globalFilter then
      match c.rewritten with
      | .sentinel next => next
      | _ => s.target
    else s.target

/-- What some lines come to, given what one line comes to above the lines that
follow it. -/
def walk {α : Type} (f : Spot → LineClass → List LineClass → List α) (s : Spot) :
    List LineClass → List α
  | [] => []
  | c :: cs => f s c cs ++ walk f (s.below c) cs

/-- A comment directly below a sentinel of the groups. -/
def copied (s : Spot) (c : LineClass) (_ : List LineClass) : List Text :=
  if s.opened = some .wordGroups ∧ s.direct = true then c.comment?.toList else []

/-- A line of a group, or a comment that waits for one, as it is written. -/
def written (s : Spot) (c : LineClass) (cs : List LineClass) : List LineClass :=
  match c with
  | .blank | .sentinel _ => []
  | .comment _ =>
    if s.opened = some .wordGroups ∧ s.direct = false ∧ sentinelNext cs = false then [c] else []
  | _ => if s.opened = some .globalFilter then [] else [c.rewritten]

/-- A comment that waits when a sentinel comes, or that is written in the global
section. -/
def lost (s : Spot) (c : LineClass) (cs : List LineClass) : List Text :=
  if s.opened = some .wordGroups ∧ s.direct = false ∧
      (sentinelNext cs = true ∨ s.target = .globalFilter) then c.comment?.toList
  else []

end Spot

/-- The comments of the groups that are lost when a text is read and written
again. -/
def lostComments (t : Text) : List Text :=
  Spot.start.walk Spot.lost (t.lines.map classOf)

/-! ## Every comment has one fate -/

namespace LineClass

variable {c : LineClass}

/-- A line of a group is written as content, or as a sentinel. -/
theorem rewritten_cases (hc : c.isContent = true) :
    c.rewritten.isContent = true ∨ ∃ opened, c.rewritten = sentinel opened := by
  cases c with
  | name n =>
      have htrim := Text.trim_of_bare (bare_bracketed n)
      rcases ofContent_cases ('[' :: (n ++ [']'])) with
        ⟨hblank, -⟩ | ⟨opened, -, hsentinel⟩ | ⟨hcomment, -⟩ | hcontent
      · rw [htrim] at hblank
        cases hblank
      · exact Or.inr ⟨opened, hsentinel⟩
      · rw [htrim] at hcomment
        simp at hcomment
      · exact Or.inl (isContent_ofContent_iff.mpr hcontent)
  | arrow pattern target => exact Or.inl rfl
  | keyword k => exact Or.inl rfl
  | blank => cases hc
  | comment text => cases hc
  | sentinel opened => cases hc

theorem comment?_rewritten (hc : c.isContent = true) : c.rewritten.comment? = none := by
  rcases rewritten_cases hc with hcontent | ⟨opened, hsentinel⟩
  · exact comment?_of_isContent hcontent
  · rw [hsentinel]
    rfl

theorem rewritten_ne_blank (hc : c.isContent = true) : c.rewritten ≠ blank := by
  intro hblank
  rcases rewritten_cases hc with hcontent | ⟨opened, hsentinel⟩
  · rw [hblank] at hcontent
    cases hcontent
  · rw [hblank] at hsentinel
    cases hsentinel

end LineClass

namespace Spot

variable (s : Spot) {c : LineClass} (cs : List LineClass)

@[simp] theorem opened_below (c : LineClass) :
    (s.below c).opened = Section.openBelow s.opened c := rfl

theorem direct_below_of_isContent (hc : c.isContent = true) : (s.below c).direct = false := by
  cases c <;> first | rfl | cases hc

theorem target_below_of_not_isContent (hc : c.isContent = false) :
    (s.below c).target = s.target := by
  simp [below, hc]

/-- The written line of a group leads to the section that the spot tells. -/
theorem openBelow_rewritten (hc : c.isContent = true) (hopened : s.opened ≠ some .globalFilter) :
    Section.openBelow (some s.target) c.rewritten = some (s.below c).target := by
  have htarget : (s.below c).target =
      match c.rewritten with
      | .sentinel next => next
      | _ => s.target := if_pos ⟨hc, hopened⟩
  rw [htarget]
  rcases LineClass.rewritten_cases hc with hcontent | ⟨opened, hsentinel⟩
  · rw [Section.openBelow_of_isContent hcontent]
    cases hclass : c.rewritten <;> first | rfl | simp [hclass, LineClass.isContent] at hcontent
  · rw [hsentinel]
    rfl

/-- A line of content is no comment, and is written unless it is a word. -/
theorem fates_of_isContent (hc : c.isContent = true) :
    s.copied c cs = [] ∧ s.lost c cs = [] ∧
      s.written c cs = if s.opened = some .globalFilter then [] else [c.rewritten] := by
  have hnone := LineClass.comment?_of_isContent hc
  refine ⟨by simp [copied, hnone], by simp [lost, hnone], ?_⟩
  cases c <;> first | rfl | cases hc

theorem fates_of_comment?_eq_none (hc : c.isContent = false) (hnone : c.comment? = none) :
    s.copied c cs = [] ∧ s.lost c cs = [] ∧ s.written c cs = [] := by
  refine ⟨by simp [copied, hnone], by simp [lost, hnone], ?_⟩
  cases c with
  | blank => rfl
  | sentinel next => rfl
  | comment text => cases hnone
  | name n => cases hc
  | arrow pattern target => cases hc
  | keyword k => cases hc

/-- A comment of the groups has one fate, depending on what stands above and
below it. -/
theorem perm_fates_of_comment {text : Text} (hopened : s.opened = some .wordGroups)
    {copied' lost' : List Text} {written' : List LineClass} {all : List Text}
    (hrest : (copied' ++ commentsIn (some s.target) written' ++ lost').Perm all) :
    (s.copied (.comment text) cs ++ copied' ++
      commentsIn (some s.target) (s.written (.comment text) cs ++ written') ++
        (s.lost (.comment text) cs ++ lost')).Perm (text :: all) := by
  refine List.Perm.trans ?_ (hrest.cons text)
  have hcomment : (LineClass.comment text).comment? = some text := rfl
  cases hdirect : s.direct with
  | true => simp [copied, written, lost, hopened, hdirect, hcomment]
  | false =>
      have hcopied : s.copied (.comment text) cs = [] := by simp [copied, hdirect]
      rw [hcopied, List.nil_append]
      cases hnext : sentinelNext cs with
      | true =>
          simp only [written, lost, hopened, hdirect, hnext, hcomment, true_or, and_self,
            Bool.true_eq_false, and_false, if_true, if_false]
          exact List.perm_middle
      | false =>
          have hwritten : s.written (.comment text) cs = [.comment text] := by
            simp [written, hopened, hdirect, hnext]
          rw [hwritten, List.singleton_append, commentsIn, hcomment]
          -- Written in the global section, it is no comment of the groups any
          -- more.
          cases htarget : s.target with
          | globalFilter =>
              simp only [lost, hopened, hdirect, htarget, hcomment, or_true, and_self, if_true]
              exact List.perm_middle
          | wordGroups =>
              simp only [lost, hnext, htarget, Bool.false_eq_true, reduceCtorEq, or_self,
                and_false, if_false, if_true]
              exact List.perm_middle.append_right lost'

/-- The comments of the groups are those that are copied, those that are
written, and those that are lost. -/
theorem perm_commentsIn :
    (s.walk copied cs ++ commentsIn (some s.target) (s.walk written cs) ++ s.walk lost cs).Perm
      (commentsIn s.opened cs) := by
  induction cs generalizing s with
  | nil => exact List.Perm.refl _
  | cons c cs ih =>
      have hrest := ih (s.below c)
      rw [opened_below] at hrest
      rw [walk, walk, walk, commentsIn]
      cases hc : c.isContent with
      | true =>
          obtain ⟨hcopied, hlost, hwritten⟩ := s.fates_of_isContent cs hc
          have hnone := LineClass.comment?_of_isContent hc
          by_cases hglobal : s.opened = some .globalFilter
          · have htarget : (s.below c).target = s.target := by simp [below, hglobal]
            rw [htarget] at hrest
            simpa [hcopied, hlost, hwritten, hglobal] using hrest
          · have hcomment := LineClass.comment?_rewritten hc
            have hopen := s.openBelow_rewritten hc hglobal
            simpa [hcopied, hlost, hwritten, hglobal, hnone, commentsIn, hcomment, hopen]
              using hrest
      | false =>
          rw [s.target_below_of_not_isContent hc] at hrest
          cases htext : c.comment? with
          | none =>
              obtain ⟨hcopied, hlost, hwritten⟩ := s.fates_of_comment?_eq_none cs hc htext
              simpa [hcopied, hlost, hwritten] using hrest
          | some text =>
              obtain rfl : c = .comment text := by
                cases c <;> first | cases htext; rfl | cases htext
              by_cases hopened : s.opened = some .wordGroups
              · rw [if_pos hopened]
                exact s.perm_fates_of_comment cs hopened hrest
              · simpa [copied, written, lost, hopened] using hrest

end Spot

/-! ## Comments that are copied -/

namespace Layout.Progress

/-- The layout takes comments where the spot is directly below a sentinel. -/
structure At (p : Progress) (s : Spot) : Prop where
  under : p.under = if s.direct then s.opened else none
  header : p.inHeader = true → s.direct = false

theorem groupsComments_addComments (y : Layout) (opened : Section) (cs : List Text) :
    (y.addComments opened cs).groupsComments =
      y.groupsComments ++ if opened = .wordGroups then cs else [] := by
  cases opened <;> simp [addComments]

variable {p : Progress} {s : Spot}

/-- A line of the header is a comment of no section. -/
theorem At.pushContent_header (h : p.At s) {content : Text} (hheader : p.inHeader = true)
    (hskipped : Text.trim content = [] ∨ (Text.trim content).head? = some '#')
    (cs : List LineClass) :
    (p.pushContent content).At (s.below (LineClass.ofContent content)) ∧
      (p.pushContent content).layout.groupsComments =
        p.layout.groupsComments ++ s.copied (LineClass.ofContent content) cs := by
  have hdirect := h.header hheader
  have hunder : p.under = none := by rw [h.under, hdirect]; rfl
  have hcopied : s.copied (LineClass.ofContent content) cs = [] := by simp [Spot.copied, hdirect]
  have hbelow : (s.below (LineClass.ofContent content)).direct = false := by
    rcases hskipped with hblank | hcomment
    · simp [LineClass.ofContent, hblank, Spot.below]
    · rw [LineClass.ofContent_eq_comment_iff.mpr ⟨hcomment, rfl⟩]
      exact hdirect
  rw [Progress.pushContent_header hheader hskipped, hcopied, List.append_nil]
  exact ⟨⟨by rw [hbelow]; exact hunder, fun _ => hbelow⟩, rfl⟩

/-- A comment below the header is copied when it stands directly below a
sentinel. -/
theorem At.pushContent_comment (h : p.At s) {content : Text} (hheader : p.inHeader = false)
    (hcomment : (Text.trim content).head? = some '#') (cs : List LineClass) :
    (p.pushContent content).At (s.below (.comment (Text.trimEnd content))) ∧
      (p.pushContent content).layout.groupsComments =
        p.layout.groupsComments ++ s.copied (.comment (Text.trimEnd content)) cs := by
  have hunder := h.under
  rw [pushContent_below (ofSentinel?_eq_none_of_isHeader (Or.inr hcomment)) (by simp [hheader]),
    ← hheader]
  cases hdirect : s.direct with
  | false =>
      rw [hdirect] at hunder
      rw [below_other (Or.inl hunder)]
      refine ⟨⟨?_, fun htrue => absurd (hheader.symm.trans htrue) (by decide)⟩, ?_⟩
      · simp [Spot.below, hdirect]
      · simp [Spot.copied, hdirect]
  | true =>
      rw [hdirect, if_pos rfl] at hunder
      cases hopened : s.opened with
      | none =>
          rw [hopened] at hunder
          rw [below_other (Or.inl hunder)]
          refine ⟨⟨?_, fun htrue => absurd (hheader.symm.trans htrue) (by decide)⟩, ?_⟩
          · simp [Spot.below, Section.openBelow, hopened]
          · simp [Spot.copied, hopened]
      | some opened =>
          rw [hopened] at hunder
          rw [below_comment hunder hcomment]
          refine ⟨⟨?_, fun htrue => absurd (hheader.symm.trans htrue) (by decide)⟩, ?_⟩
          · simp [Spot.below, Section.openBelow, hopened, hdirect, hunder]
          · rw [groupsComments_addComments]
            simp [Spot.copied, hopened, hdirect, LineClass.comment?]

/-- One more line adds the comment of the groups that it may be. -/
theorem At.pushContent (h : p.At s) (content : Text) (cs : List LineClass) :
    (p.pushContent content).At (s.below (LineClass.ofContent content)) ∧
      (p.pushContent content).layout.groupsComments =
        p.layout.groupsComments ++ s.copied (LineClass.ofContent content) cs := by
  rcases LineClass.ofContent_cases content with
    ⟨hblank, hclass⟩ | ⟨opened, hsentinel, hclass⟩ | ⟨hcomment, hclass⟩ | hcontent
  · cases hheader : p.inHeader with
    | true => exact h.pushContent_header hheader (Or.inl hblank) cs
    | false =>
        have hnone := ofSentinel?_eq_none_of_isHeader (Or.inl hblank)
        rw [pushContent_other hnone hheader (by simp [hblank]), hclass]
        exact ⟨⟨rfl, fun _ => rfl⟩, by simp [Spot.copied, LineClass.comment?]⟩
  · rw [Progress.pushContent_sentinel hsentinel, hclass]
    exact ⟨⟨rfl, fun htrue => nomatch htrue⟩, by simp [Spot.copied, LineClass.comment?]⟩
  · cases hheader : p.inHeader with
    | true => exact h.pushContent_header hheader (Or.inr hcomment) cs
    | false =>
        rw [hclass]
        exact h.pushContent_comment hheader hcomment cs
  · have hc := LineClass.isContent_ofContent_iff.mpr hcontent
    have hdirect := s.direct_below_of_isContent hc
    obtain ⟨hcopied, -, -⟩ := s.fates_of_isContent cs hc
    obtain ⟨hne, hnone, hhead⟩ := hcontent
    rw [pushContent_below hnone fun hheader => hheader.2.elim hne hhead,
      below_other (Or.inr hhead), hcopied]
    exact ⟨⟨by rw [hdirect]; rfl, fun _ => hdirect⟩, by simp⟩

theorem At.read (h : p.At s) (contents : List Text) :
    (p.read contents).layout.groupsComments =
      p.layout.groupsComments ++ s.walk Spot.copied (contents.map LineClass.ofContent) := by
  induction contents generalizing p s with
  | nil => simp [Spot.walk]
  | cons content contents ih =>
      obtain ⟨hnext, hpush⟩ := h.pushContent content (contents.map LineClass.ofContent)
      rw [read_cons, ih hnext, hpush, List.map_cons, Spot.walk, List.append_assoc]

end Layout.Progress

theorem Layout.groupsComments_ofText (t : Text) :
    (Layout.ofText t).groupsComments =
      Spot.start.walk Spot.copied (t.lines.map classOf) := by
  have hstart : Layout.Progress.start.At Spot.start := ⟨rfl, fun _ => rfl⟩
  have hread := hstart.read (t.lines.map Line.content)
  rw [Layout.ofText_eq_read, hread, List.map_map]
  rfl

end Marginalia.Keywords

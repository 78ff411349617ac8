import Marginalia.Proofs.Keywords.Runs

/-!
# What is copied from an earlier text

A layout is read from contents, line by line, like the groups.  The parts that
were copied are read back from the place where they are written, whatever words,
groups and comments stand around them.
-/

namespace Marginalia.Keywords

namespace Layout

namespace Progress

def pushContent (p : Progress) (content : Text) : Progress :=
  p.push ⟨0, 0, content, .none⟩

/-- Some more lines, given their contents. -/
def read (p : Progress) (contents : List Text) : Progress :=
  contents.foldl pushContent p

@[simp] theorem read_nil (p : Progress) : p.read [] = p := rfl

@[simp] theorem read_cons (p : Progress) (content : Text) (contents : List Text) :
    p.read (content :: contents) = (p.pushContent content).read contents := rfl

@[simp] theorem read_append (p : Progress) (contents contents' : List Text) :
    p.read (contents ++ contents') = (p.read contents).read contents' :=
  List.foldl_append

def start : Progress :=
  ⟨⟨[], [], []⟩, true, none⟩

end Progress

open Progress

theorem ofText_eq_read (t : Text) :
    ofText t = (start.read (t.lines.map Line.content)).layout := by
  rw [ofText, Progress.read, List.foldl_map]
  rfl

/-- A line that can stand above the first sentinel. -/
def IsHeader (line : Text) : Prop :=
  Text.IsLine line ∧ (Text.trim line = [] ∨ (Text.trim line).head? = some '#')

/-- The parts of a text are read back from where they are written. -/
structure Canonical (y : Layout) : Prop where
  header : ∀ line ∈ y.header, IsHeader line
  globalComments : ∀ c ∈ y.globalComments, ReadsAs c (.comment c)
  groupsComments : ∀ c ∈ y.groupsComments, ReadsAs c (.comment c)

/-- The header has lines with the property `P`, each blank or a comment, and the
other parts are comments as they are written. -/
structure Copies (y : Layout) (P : Text → Prop) : Prop where
  header : ∀ line ∈ y.header,
    P line ∧ (Text.trim line = [] ∨ (Text.trim line).head? = some '#')
  globalComments : ∀ c ∈ y.globalComments, ReadsAs c (.comment c)
  groupsComments : ∀ c ∈ y.groupsComments, ReadsAs c (.comment c)

theorem canonical_iff_copies {y : Layout} : y.Canonical ↔ y.Copies Text.IsLine :=
  ⟨fun h => ⟨h.header, h.globalComments, h.groupsComments⟩,
    fun h => ⟨h.header, h.globalComments, h.groupsComments⟩⟩

def addComments (y : Layout) (opened : Section) (cs : List Text) : Layout :=
  match opened with
  | .globalFilter => { y with globalComments := y.globalComments ++ cs }
  | .wordGroups => { y with groupsComments := y.groupsComments ++ cs }

theorem addComments_nil (y : Layout) (opened : Section) : y.addComments opened [] = y := by
  cases opened <;> simp [addComments]

theorem addComments_addComments (y : Layout) (opened : Section) (cs ds : List Text) :
    (y.addComments opened cs).addComments opened ds = y.addComments opened (cs ++ ds) := by
  cases opened <;> simp [addComments]

theorem Copies.addComments {y : Layout} {P : Text → Prop} {cs : List Text} (h : y.Copies P)
    (opened : Section) (hcs : ∀ c ∈ cs, ReadsAs c (.comment c)) :
    (y.addComments opened cs).Copies P := by
  cases opened with
  | globalFilter =>
      exact ⟨h.header, List.forall_mem_append.mpr ⟨h.globalComments, hcs⟩, h.groupsComments⟩
  | wordGroups =>
      exact ⟨h.header, h.globalComments, List.forall_mem_append.mpr ⟨h.groupsComments, hcs⟩⟩

theorem ofSentinel?_eq_none_of_isHeader {line : Text}
    (h : Text.trim line = [] ∨ (Text.trim line).head? = some '#') :
    Section.ofSentinel? (Text.trim line) = none := by
  apply ofSentinel?_eq_none
  intro opened hopened
  obtain ⟨n, -, -, hsentinel⟩ := sentinel_bracketed opened
  rcases h with hblank | hcomment
  · rw [hblank, hsentinel] at hopened
    cases hopened
  · rw [hopened, hsentinel] at hcomment
    simp at hcomment

namespace Progress

variable {p : Progress} {content : Text}

theorem pushContent_sentinel {opened : Section} (h : Text.trim content = opened.sentinel) :
    p.pushContent content = { p with inHeader := false, under := some opened } := by
  have hsentinel := LineClass.ofSentinel?_eq_some_iff.mpr h
  simp [pushContent, push, hsentinel]

theorem pushContent_header (hheader : p.inHeader = true)
    (h : Text.trim content = [] ∨ (Text.trim content).head? = some '#') :
    p.pushContent content =
      { p with layout := { p.layout with header := p.layout.header ++ [content] } } := by
  have hsentinel := ofSentinel?_eq_none_of_isHeader h
  simp [pushContent, push, hsentinel, hheader, h]

/-- Below the header a line that is no sentinel is looked at where it stands. -/
theorem pushContent_below (hsentinel : Section.ofSentinel? (Text.trim content) = none)
    (hbelow : ¬(p.inHeader = true ∧
      (Text.trim content = [] ∨ (Text.trim content).head? = some '#'))) :
    p.pushContent content = { p with inHeader := false }.below content (Text.trim content) := by
  simp only [pushContent, push, hsentinel, List.isEmpty_iff]
  rw [if_neg hbelow]

theorem below_comment {opened : Section} {trimmed : Text} (hunder : p.under = some opened)
    (hcomment : trimmed.head? = some '#') :
    p.below content trimmed =
      { p with layout := p.layout.addComments opened [Text.trimEnd content] } := by
  cases opened <;> simp [below, hunder, hcomment, addComments]

theorem below_other {trimmed : Text} (h : p.under = none ∨ trimmed.head? ≠ some '#') :
    p.below content trimmed = { p with under := none } := by
  rcases h with hunder | hcomment
  · simp [below, hunder]
  · simp [below, hcomment]

/-- A line that is no comment ends the comments under a sentinel. -/
theorem pushContent_other (hsentinel : Section.ofSentinel? (Text.trim content) = none)
    (hheader : p.inHeader = false) (hcomment : (Text.trim content).head? ≠ some '#') :
    p.pushContent content = { p with under := none } := by
  rw [pushContent_below hsentinel (by simp [hheader]), below_other (Or.inr hcomment), ← hheader]

theorem pushContent_comment {opened : Section} {c : Text} (hheader : p.inHeader = false)
    (hunder : p.under = some opened) (hc : ReadsAs c (.comment c)) :
    p.pushContent c = { p with layout := p.layout.addComments opened [c] } := by
  obtain ⟨hhead, hend⟩ := LineClass.ofContent_eq_comment_iff.mp hc.ofContent_eq
  have hsentinel := ofSentinel?_eq_none_of_isHeader (Or.inr hhead)
  rw [pushContent_below hsentinel (by simp [hheader]), ← hheader, below_comment hunder hhead,
    ← hend]

/-- Below the comments of a sentinel nothing is taken before the next
sentinel. -/
theorem pushContent_inside (hheader : p.inHeader = false) (hunder : p.under = none)
    (hcontent : IsInside content) : p.pushContent content = p := by
  have hsentinel : Section.ofSentinel? (Text.trim content) = none := by
    apply ofSentinel?_eq_none
    intro opened hopened
    exact hcontent.2 opened (LineClass.ofContent_eq_sentinel hopened)
  rw [pushContent_below hsentinel (by simp [hheader]), ← hheader]
  cases p
  simp_all [below]

theorem copies_pushContent {P : Text → Prop} (h : p.layout.Copies P) (hcontent : P content)
    (hlf : '\n' ∉ content) : (p.pushContent content).layout.Copies P := by
  cases hsentinel : Section.ofSentinel? (Text.trim content) with
  | some opened =>
      rw [pushContent_sentinel (LineClass.ofSentinel?_eq_some_iff.mp hsentinel)]
      exact h
  | none =>
      by_cases hheader : p.inHeader = true ∧
          (Text.trim content = [] ∨ (Text.trim content).head? = some '#')
      · have hlines := forall_mem_concat h.header ⟨hcontent, hheader.2⟩
        have hpush : p.pushContent content =
            { p with layout := { p.layout with header := p.layout.header ++ [content] } } := by
          simp [pushContent, push, hsentinel, hheader.1, hheader.2]
        rw [hpush]
        exact ⟨hlines, h.globalComments, h.groupsComments⟩
      · rw [pushContent_below hsentinel hheader]
        by_cases hcomment : (Text.trim content).head? = some '#'
        · cases p.under with
          | none =>
              rw [below_other (Or.inl rfl)]
              exact h
          | some opened =>
              have hread : ReadsAs (Text.trimEnd content) (.comment (Text.trimEnd content)) :=
                readsAs_comment hlf (LineClass.ofContent_eq_comment_iff.mpr ⟨hcomment, rfl⟩)
              rw [below_comment rfl hcomment]
              exact h.addComments opened (List.forall_mem_singleton.mpr hread)
        · rw [below_other (Or.inr hcomment)]
          exact h

end Progress

/-- The header that is read from some contents consists of contents. -/
theorem copies_read {P : Text → Prop} {contents : List Text}
    (h : ∀ content ∈ contents, P content ∧ '\n' ∉ content) :
    (start.read contents).layout.Copies P := by
  have hread : ∀ (contents : List Text) (p : Progress), p.layout.Copies P →
      (∀ content ∈ contents, P content ∧ '\n' ∉ content) →
      (p.read contents).layout.Copies P := by
    intro contents
    induction contents with
    | nil => exact fun p hp _ => hp
    | cons content contents ih =>
        intro p hp hcontents
        obtain ⟨hcontent, hlf⟩ := hcontents content (by simp)
        exact ih (p.pushContent content) (copies_pushContent hp hcontent hlf)
          fun c hc => hcontents c (by simp [hc])
  exact hread contents start ⟨by simp [start], by simp [start], by simp [start]⟩ h

/-- The layout of a text that holds no stray carriage return. -/
theorem canonical_read {contents : List Text} (h : ∀ content ∈ contents, Text.IsLine content) :
    (start.read contents).layout.Canonical :=
  canonical_iff_copies.mpr (copies_read fun content hcontent =>
    ⟨h content hcontent, (h content hcontent).1⟩)

/-! ## Reading the copied parts -/

namespace Progress

variable {header globalComments groupsComments : List Text} {under : Option Section}

theorem read_header {ls : List Text}
    (h : ∀ line ∈ ls, Text.trim line = [] ∨ (Text.trim line).head? = some '#') :
    (⟨⟨header, globalComments, groupsComments⟩, true, under⟩ : Progress).read ls =
      ⟨⟨header ++ ls, globalComments, groupsComments⟩, true, under⟩ := by
  induction ls generalizing header with
  | nil => simp
  | cons line ls ih =>
      rw [read_cons, pushContent_header rfl (h line (by simp)),
        ih fun l hl => h l (by simp [hl])]
      simp

theorem read_comments {y : Layout} {opened : Section} {cs : List Text}
    (h : ∀ c ∈ cs, ReadsAs c (.comment c)) :
    (⟨y, false, some opened⟩ : Progress).read cs =
      ⟨y.addComments opened cs, false, some opened⟩ := by
  induction cs generalizing y with
  | nil => rw [read_nil, addComments_nil]
  | cons c cs ih =>
      rw [read_cons, pushContent_comment rfl rfl (h c (by simp)), ih fun d hd => h d (by simp [hd]),
        addComments_addComments]
      rfl

/-- Words and the blank line below them are no part of a layout. -/
theorem read_words {words : List Text} (h : ∀ w ∈ words, IsWord w) (y : Layout) :
    (⟨y, false, under⟩ : Progress).read (words ++ [[]]) = ⟨y, false, none⟩ := by
  induction words generalizing under with
  | nil =>
      have hsentinel : Section.ofSentinel? (Text.trim []) = none := by decide
      exact pushContent_other (p := ⟨y, false, under⟩) hsentinel rfl (by decide)
  | cons w words ih =>
      have hw := h w (by simp)
      obtain ⟨-, hsentinel, hcomment⟩ := hw.isContent
      rw [List.cons_append, read_cons,
        pushContent_other (by rw [hw.trim_eq]; exact hsentinel) rfl (by rwa [hw.trim_eq])]
      exact ih fun w' hw' => h w' (by simp [hw'])

theorem read_inside {ls : List Text} (h : ∀ line ∈ ls, IsInside line) (y : Layout) :
    (⟨y, false, none⟩ : Progress).read ls = ⟨y, false, none⟩ := by
  induction ls with
  | nil => rfl
  | cons line ls ih =>
      rw [read_cons, pushContent_inside rfl rfl (h line (by simp))]
      exact ih fun l hl => h l (by simp [hl])

end Progress

/-- What was copied is read back, whatever words and groups are written with
it. -/
theorem read_lines {y : Layout} {P : Text → Prop} {words inside : List Text} (hy : y.Copies P)
    (hwords : ∀ w ∈ words, IsWord w) (hinside : ∀ line ∈ inside, IsInside line)
    (hblank : inside.head? = none ∨ inside.head? = some []) :
    (start.read (y.header ++ [Section.globalFilter.sentinel] ++ y.globalComments ++
      (words ++ [[]]) ++ [Section.wordGroups.sentinel] ++ y.groupsComments ++ inside)).layout =
        y := by
  obtain ⟨header, globalComments, groupsComments⟩ := y
  have hheader : start.read header = ⟨⟨header, [], []⟩, true, none⟩ :=
    read_header fun line hline => (hy.header line hline).2
  have hopened : ∀ (y : Layout) (b : Bool) (under : Option Section) (opened : Section),
      (⟨y, b, under⟩ : Progress).read [opened.sentinel] = ⟨y, false, some opened⟩ := by
    intro y b under opened
    have htrim : Text.trim opened.sentinel = opened.sentinel := by cases opened <;> decide
    exact pushContent_sentinel htrim
  have hglobal : (⟨⟨header, [], []⟩, false, some .globalFilter⟩ : Progress).read globalComments =
      ⟨⟨header, globalComments, []⟩, false, some .globalFilter⟩ :=
    read_comments hy.globalComments
  have hfilter : (⟨⟨header, globalComments, []⟩, false, some .globalFilter⟩ : Progress).read
      (words ++ [[]]) = ⟨⟨header, globalComments, []⟩, false, none⟩ := read_words hwords _
  have hgroups : (⟨⟨header, globalComments, []⟩, false, some .wordGroups⟩ : Progress).read
      groupsComments = ⟨⟨header, globalComments, groupsComments⟩, false, some .wordGroups⟩ :=
    read_comments hy.groupsComments
  have hrest : ((⟨⟨header, globalComments, groupsComments⟩, false, some .wordGroups⟩ :
      Progress).read inside).layout = ⟨header, globalComments, groupsComments⟩ := by
    cases inside with
    | nil => rfl
    | cons line rest =>
        obtain rfl : line = [] := by simpa using hblank
        have hblank : (⟨⟨header, globalComments, groupsComments⟩, false, some .wordGroups⟩ :
            Progress).read ([] ++ [[]]) = ⟨⟨header, globalComments, groupsComments⟩, false, none⟩ :=
          read_words (by simp) _
        rw [List.nil_append] at hblank
        rw [← List.singleton_append, read_append, hblank,
          read_inside fun l hl => hinside l (by simp [hl])]
  generalize words ++ [[]] = lines at hfilter
  rw [read_append, read_append, read_append, read_append, read_append, read_append, hheader,
    hopened _ true none .globalFilter, hglobal, hfilter, hopened _ false none .wordGroups, hgroups,
    hrest]

end Layout

end Marginalia.Keywords

import Marginalia.Keywords.Line
import Marginalia.Keywords.Group
import Marginalia.Proofs.Text.Lines
import Marginalia.Proofs.Text.Trim

/-!
# Lines that are read back

A line is written from what it was read as: a comment without the white space at
its end, a name between brackets, an alias with its arrow, a keyword without the
white space around it.  The written line has the class that the line had.  Only
names need a condition: a name of white space, or one that spells a sentinel, is
written as a line of another class.
-/

namespace Marginalia.Keywords

open CharClass

theorem forall_mem_concat {α : Type} {p : α → Prop} {l : List α} {a : α} (hl : ∀ x ∈ l, p x)
    (ha : p a) : ∀ x ∈ l ++ [a], p x :=
  List.forall_mem_append.mpr ⟨hl, List.forall_mem_singleton.mpr ha⟩

namespace LineClass

/-! ## Names and arrows -/

theorem bracketed?_eq_some_iff {trimmed n : Text} :
    bracketed? trimmed = some n ↔
      ∃ s, s ≠ [] ∧ trimmed = '[' :: (s ++ [']']) ∧ n = Text.trim s := by
  constructor
  · intro h
    unfold bracketed? at h
    split at h
    · next r =>
        split at h
        · next c cs hinside =>
            refine ⟨c :: cs, by simp, ?_, (Option.some.inj h).symm⟩
            rw [Text.dropSuffix?_eq_some_iff.mp hinside]
        · cases h
    · cases h
  · rintro ⟨s, hs, rfl, rfl⟩
    obtain ⟨c, cs, rfl⟩ := List.exists_cons_of_ne_nil hs
    have hinside : Text.dropSuffix? [']'] (c :: cs ++ [']']) = some (c :: cs) :=
      Text.dropSuffix?_eq_some_iff.mpr rfl
    simp only [bracketed?, hinside]

theorem bracketed?_eq_none_iff {trimmed : Text} :
    bracketed? trimmed = none ↔ ∀ s, s ≠ [] → trimmed ≠ '[' :: (s ++ [']']) := by
  constructor
  · intro h s hs htrimmed
    have hsome := bracketed?_eq_some_iff.mpr ⟨s, hs, htrimmed, rfl⟩
    rw [h] at hsome
    cases hsome
  · intro h
    cases hname : bracketed? trimmed with
    | none => rfl
    | some n =>
        obtain ⟨s, hs, htrimmed, -⟩ := bracketed?_eq_some_iff.mp hname
        exact absurd htrimmed (h s hs)

theorem splitArrow?_cons_of_ne {c : Char} {t : Text}
    (h : ∀ d r, c :: t ≠ '=' :: '>' :: d :: r) :
    splitArrow? (c :: t) = (splitArrow? t).map fun (left, right) => (c :: left, right) := by
  rw [splitArrow?]
  intro d r hc
  exact fun ht => h d r (by rw [hc, ht])

theorem not_infix_arrow_cons {c : Char} {left : Text} (hleft : ¬['=', '>'] <:+: left)
    (h : ∀ r, c :: left ≠ '=' :: '>' :: r) : ¬['=', '>'] <:+: c :: left := by
  intro harrow
  rcases List.infix_cons_iff.mp harrow with ⟨r, hr⟩ | htail
  · exact h r (by simpa using hr.symm)
  · exact hleft htail

/-- The first arrow with text behind it is the one with no arrow in front of
it. -/
theorem splitArrow?_eq_some_iff {t left right : Text} :
    splitArrow? t = some (left, right) ↔
      t = left ++ '=' :: '>' :: right ∧ right ≠ [] ∧ ¬['=', '>'] <:+: left := by
  constructor
  · intro h
    induction t generalizing left with
    | nil => cases h
    | cons c t ih =>
        by_cases harrow : ∃ d r, c :: t = '=' :: '>' :: d :: r
        · obtain ⟨d, r, hform⟩ := harrow
          rw [hform, splitArrow?, Option.some.injEq, Prod.mk.injEq] at h
          obtain ⟨rfl, rfl⟩ := h
          exact ⟨hform, by simp, by simp⟩
        · have hform : ∀ d r, c :: t ≠ '=' :: '>' :: d :: r := fun d r hr => harrow ⟨d, r, hr⟩
          rw [splitArrow?_cons_of_ne hform, Option.map_eq_some_iff] at h
          obtain ⟨⟨rest, right'⟩, hrest, hpair⟩ := h
          obtain ⟨rfl, rfl⟩ := Prod.mk.inj hpair
          obtain ⟨rfl, hright, hfree⟩ := ih hrest
          obtain ⟨d, r, rfl⟩ := List.exists_cons_of_ne_nil hright
          refine ⟨rfl, hright, not_infix_arrow_cons hfree ?_⟩
          -- An arrow at the start would have been the first one.
          intro r' hr'
          obtain ⟨rfl, rfl⟩ := List.cons.inj hr'
          cases r' with
          | nil => exact hform '=' ('>' :: d :: r) rfl
          | cons e r' => exact hform e (r' ++ '=' :: '>' :: d :: r) rfl
  · rintro ⟨rfl, hright, hfree⟩
    obtain ⟨d, r, rfl⟩ := List.exists_cons_of_ne_nil hright
    induction left with
    | nil => rfl
    | cons c left ih =>
        have htail : ¬['=', '>'] <:+: left := fun h => hfree (List.infix_cons h)
        have hform : ∀ d' r', c :: (left ++ '=' :: '>' :: d :: r) ≠ '=' :: '>' :: d' :: r' := by
          intro d' r' heq
          obtain ⟨hc, hrest⟩ := List.cons.inj heq
          cases left with
          | nil => exact absurd (List.cons.inj hrest).1 (by decide)
          | cons e left =>
              have he := (List.cons.inj hrest).1
              exact hfree ⟨[], left, by rw [hc, he]; rfl⟩
        rw [List.cons_append, splitArrow?_cons_of_ne hform, ih htail]
        rfl

theorem arrow?_cons_eq_some_iff {c : Char} {r pattern target : Text} :
    arrow? (c :: r) = some (pattern, target) ↔
      ∃ left right, splitArrow? r = some (left, right) ∧
        pattern = Text.trimEnd (c :: left) ∧ target = Text.trim right := by
  rw [arrow?, Option.map_eq_some_iff]
  constructor
  · rintro ⟨⟨left, right⟩, hsplit, hpair⟩
    obtain ⟨rfl, rfl⟩ := Prod.mk.inj hpair
    exact ⟨left, right, hsplit, rfl, rfl⟩
  · rintro ⟨left, right, hsplit, rfl, rfl⟩
    exact ⟨(left, right), hsplit, rfl⟩

/-! ## Classes -/

/-- A line, without the white space around it, that is not blank, no sentinel
and no comment. -/
def IsContent (trimmed : Text) : Prop :=
  trimmed ≠ [] ∧ Section.ofSentinel? trimmed = none ∧ trimmed.head? ≠ some '#'

theorem ofContent_of_isContent {content : Text} (h : IsContent (Text.trim content)) :
    ofContent content =
      match bracketed? (Text.trim content) with
      | some n => name n
      | none =>
        match arrow? (Text.trim content) with
        | some (pattern, target) => arrow pattern target
        | none => keyword (Text.trim content) := by
  obtain ⟨hne, hsentinel, hcomment⟩ := h
  cases hname : bracketed? (Text.trim content) with
  | some n => simp [ofContent, hne, hsentinel, hcomment, hname]
  | none =>
      cases harrow : arrow? (Text.trim content) with
      | some pair => simp [ofContent, hne, hsentinel, hcomment, hname, harrow]
      | none => simp [ofContent, hne, hsentinel, hcomment, hname, harrow]

theorem ofSentinel?_eq_some_iff {trimmed : Text} {opened : Section} :
    Section.ofSentinel? trimmed = some opened ↔ trimmed = opened.sentinel := by
  unfold Section.ofSentinel?
  constructor
  · intro h
    split at h
    · next htext => rw [htext, Option.some.inj h]
    · split at h
      · next htext => rw [htext, Option.some.inj h]
      · cases h
  · rintro rfl
    cases opened with
    | globalFilter => decide
    | wordGroups => decide

theorem ofContent_eq_sentinel {content : Text} {opened : Section}
    (h : Text.trim content = opened.sentinel) : ofContent content = sentinel opened := by
  have hsentinel := ofSentinel?_eq_some_iff.mpr h
  have hne : Text.trim content ≠ [] := by
    rw [h]
    cases opened with
    | globalFilter => decide
    | wordGroups => decide
  simp [ofContent, hne, hsentinel]

theorem ofContent_sentinel (opened : Section) : ofContent opened.sentinel = sentinel opened := by
  cases opened with
  | globalFilter => decide
  | wordGroups => decide

theorem ofContent_cases (content : Text) :
    Text.trim content = [] ∧ ofContent content = blank ∨
      (∃ opened, Text.trim content = opened.sentinel ∧ ofContent content = sentinel opened) ∨
      (Text.trim content).head? = some '#' ∧ ofContent content = comment (Text.trimEnd content) ∨
      IsContent (Text.trim content) := by
  by_cases hblank : Text.trim content = []
  · exact Or.inl ⟨hblank, by simp [ofContent, hblank]⟩
  · cases hsentinel : Section.ofSentinel? (Text.trim content) with
    | some opened =>
        have htrim := ofSentinel?_eq_some_iff.mp hsentinel
        exact Or.inr (Or.inl ⟨opened, htrim, ofContent_eq_sentinel htrim⟩)
    | none =>
        by_cases hcomment : (Text.trim content).head? = some '#'
        · refine Or.inr (Or.inr (Or.inl ⟨hcomment, ?_⟩))
          simp [ofContent, hblank, hsentinel, hcomment]
        · exact Or.inr (Or.inr (Or.inr ⟨hblank, hsentinel, hcomment⟩))

theorem isContent_iff {content : Text} :
    IsContent (Text.trim content) ↔
      (∃ n, ofContent content = name n) ∨
        (∃ pattern target, ofContent content = arrow pattern target) ∨
        ∃ k, ofContent content = keyword k := by
  constructor
  · intro h
    rw [ofContent_of_isContent h]
    cases bracketed? (Text.trim content) with
    | some n => exact Or.inl ⟨n, rfl⟩
    | none =>
        cases arrow? (Text.trim content) with
        | some pair => exact Or.inr (Or.inl ⟨pair.1, pair.2, rfl⟩)
        | none => exact Or.inr (Or.inr ⟨_, rfl⟩)
  · intro h
    rcases ofContent_cases content with
      ⟨-, hclass⟩ | ⟨opened, -, hclass⟩ | ⟨-, hclass⟩ | hcontent
    · simp [hclass] at h
    · simp [hclass] at h
    · simp [hclass] at h
    · exact hcontent

theorem ofContent_eq_name_iff {content n : Text} :
    ofContent content = name n ↔
      IsContent (Text.trim content) ∧ bracketed? (Text.trim content) = some n := by
  constructor
  · intro h
    have hcontent := isContent_iff.mpr (Or.inl ⟨n, h⟩)
    refine ⟨hcontent, ?_⟩
    rw [ofContent_of_isContent hcontent] at h
    cases hname : bracketed? (Text.trim content) with
    | some m => simpa [hname] using h
    | none =>
        cases harrow : arrow? (Text.trim content) with
        | some pair => simp [hname, harrow] at h
        | none => simp [hname, harrow] at h
  · rintro ⟨hcontent, hname⟩
    rw [ofContent_of_isContent hcontent, hname]

theorem ofContent_eq_arrow_iff {content pattern target : Text} :
    ofContent content = arrow pattern target ↔
      IsContent (Text.trim content) ∧ bracketed? (Text.trim content) = none ∧
        arrow? (Text.trim content) = some (pattern, target) := by
  constructor
  · intro h
    have hcontent := isContent_iff.mpr (Or.inr (Or.inl ⟨pattern, target, h⟩))
    refine ⟨hcontent, ?_⟩
    rw [ofContent_of_isContent hcontent] at h
    cases hname : bracketed? (Text.trim content) with
    | some m => simp [hname] at h
    | none =>
        cases harrow : arrow? (Text.trim content) with
        | some pair =>
            simp only [hname, harrow, arrow.injEq] at h
            obtain ⟨rfl, rfl⟩ := h
            exact ⟨rfl, rfl⟩
        | none => simp [hname, harrow] at h
  · rintro ⟨hcontent, hname, harrow⟩
    rw [ofContent_of_isContent hcontent, hname, harrow]

theorem ofContent_eq_keyword_iff {content k : Text} :
    ofContent content = keyword k ↔
      IsContent (Text.trim content) ∧ bracketed? (Text.trim content) = none ∧
        arrow? (Text.trim content) = none ∧ k = Text.trim content := by
  constructor
  · intro h
    have hcontent := isContent_iff.mpr (Or.inr (Or.inr ⟨k, h⟩))
    refine ⟨hcontent, ?_⟩
    rw [ofContent_of_isContent hcontent] at h
    cases hname : bracketed? (Text.trim content) with
    | some m => simp [hname] at h
    | none =>
        cases harrow : arrow? (Text.trim content) with
        | some pair => simp [hname, harrow] at h
        | none =>
            simp only [hname, harrow, keyword.injEq] at h
            exact ⟨rfl, rfl, h.symm⟩
  · rintro ⟨hcontent, hname, harrow, rfl⟩
    rw [ofContent_of_isContent hcontent, hname, harrow]

theorem ofContent_eq_comment_iff {content written : Text} :
    ofContent content = comment written ↔
      (Text.trim content).head? = some '#' ∧ written = Text.trimEnd content := by
  rcases ofContent_cases content with
    ⟨hblank, hclass⟩ | ⟨opened, hsentinel, hclass⟩ | ⟨hcomment, hclass⟩ | hcontent
  · simp [hblank, hclass]
  · have hhead : (Text.trim content).head? ≠ some '#' := by
      rw [hsentinel]
      cases opened with
      | globalFilter => decide
      | wordGroups => decide
    simp [hclass, hhead]
  · rw [hclass, comment.injEq]
    exact ⟨fun h => ⟨hcomment, h.symm⟩, fun h => h.2.symm⟩
  · have hhead := hcontent.2.2
    rcases isContent_iff.mp hcontent with ⟨n, hn⟩ | ⟨pattern, target, harrow⟩ | ⟨k, hk⟩
    · simp [hn, hhead]
    · simp [harrow, hhead]
    · simp [hk, hhead]

end LineClass

/-! ## Lines read back -/

/-- A line that a text can hold, with the class that it has there. -/
structure ReadsAs (line : Text) (c : LineClass) : Prop where
  isLine : Text.IsLine line
  ofContent_eq : LineClass.ofContent line = c

/-- A line of the global section as it is written there. -/
structure IsWord (word : Text) : Prop where
  isLine : Text.IsLine word
  trim_eq : Text.trim word = word
  isContent : LineClass.IsContent word

open LineClass

/-- A line that ends without white space does not end with a carriage return. -/
theorem isLine_of_not_white {line : Text} (hlf : '\n' ∉ line)
    (h : ∀ c ∈ line.getLast?, isWhite c = false) : Text.IsLine line := by
  refine ⟨hlf, ?_⟩
  intro hcr
  have hwhite := h '\r' hcr
  exact absurd hwhite (by decide)

theorem isLine_trimEnd {content : Text} (hlf : '\n' ∉ content) :
    Text.IsLine (Text.trimEnd content) :=
  isLine_of_not_white (fun hmem => hlf (Text.mem_of_mem_trimEnd hmem))
    (Text.getLast?_trimEnd content)

theorem isLine_trim {content : Text} (hlf : '\n' ∉ content) :
    Text.IsLine (Text.trim content) :=
  isLine_of_not_white (fun hmem => hlf (Text.mem_of_mem_trim hmem)) (Text.bare_trim content).2

theorem isWord_trim {content : Text} (hlf : '\n' ∉ content)
    (h : IsContent (Text.trim content)) : IsWord (Text.trim content) :=
  ⟨isLine_trim hlf, Text.trim_trim content, h⟩

theorem readsAs_comment {content written : Text} (hlf : '\n' ∉ content)
    (h : ofContent content = .comment written) : ReadsAs written (.comment written) := by
  obtain ⟨hhead, rfl⟩ := ofContent_eq_comment_iff.mp h
  refine ⟨isLine_trimEnd hlf, ?_⟩
  rw [ofContent_eq_comment_iff, Text.trim_trimEnd]
  exact ⟨hhead, (Text.trimEnd_trimEnd content).symm⟩

theorem readsAs_keyword {content k : Text} (hlf : '\n' ∉ content)
    (h : ofContent content = .keyword k) : ReadsAs k (.keyword k) := by
  obtain ⟨hcontent, hname, harrow, rfl⟩ := ofContent_eq_keyword_iff.mp h
  refine ⟨isLine_trim hlf, ?_⟩
  rw [ofContent_eq_keyword_iff, Text.trim_trim]
  exact ⟨hcontent, hname, harrow, rfl⟩

/-- A name that is not empty and spells no sentinel between brackets. -/
def IsGroupName (n : Text) : Prop :=
  n ≠ [] ∧ n ≠ "GLOBAL_FILTER".toList ∧ n ≠ "WORD_GROUPS".toList

theorem sentinel_bracketed (opened : Section) :
    ∃ n, ¬IsGroupName n ∧ n ≠ [] ∧ opened.sentinel = '[' :: (n ++ [']']) := by
  cases opened with
  | globalFilter => exact ⟨"GLOBAL_FILTER".toList, fun h => h.2.1 rfl, by decide, by decide⟩
  | wordGroups => exact ⟨"WORD_GROUPS".toList, fun h => h.2.2 rfl, by decide, by decide⟩

theorem isLine_sentinel (opened : Section) : Text.IsLine opened.sentinel := by
  cases opened with
  | globalFilter => exact ⟨by decide, by decide⟩
  | wordGroups => exact ⟨by decide, by decide⟩

theorem ofSentinel?_eq_none {trimmed : Text} (h : ∀ opened : Section, trimmed ≠ opened.sentinel) :
    Section.ofSentinel? trimmed = none := by
  cases hsentinel : Section.ofSentinel? trimmed with
  | none => rfl
  | some opened => exact absurd (ofSentinel?_eq_some_iff.mp hsentinel) (h opened)

theorem bare_bracketed (n : Text) : Text.Bare ('[' :: (n ++ [']'])) := by
  have hopen : isWhite '[' = false := by decide
  have hclose : isWhite ']' = false := by decide
  exact ⟨by simp [hopen], by simp [List.getLast?_cons, hclose]⟩

theorem readsAs_name {content n : Text} (hlf : '\n' ∉ content)
    (h : ofContent content = .name n) (hn : IsGroupName n) :
    ReadsAs ('[' :: (n ++ [']'])) (.name n) := by
  obtain ⟨hcontent, hname⟩ := ofContent_eq_name_iff.mp h
  obtain ⟨s, hs, htrim, rfl⟩ := bracketed?_eq_some_iff.mp hname
  have hbare := bare_bracketed (Text.trim s)
  have hsentinel : ∀ opened : Section, '[' :: (Text.trim s ++ [']']) ≠ opened.sentinel := by
    intro opened heq
    obtain ⟨m, hm, -, hopened⟩ := sentinel_bracketed opened
    rw [hopened, List.cons.injEq] at heq
    exact hm (List.append_cancel_right heq.2 ▸ hn)
  refine ⟨isLine_of_not_white ?_ hbare.2, ?_⟩
  · have hmem : '\n' ∉ Text.trim content := fun hmem => hlf (Text.mem_of_mem_trim hmem)
    rw [htrim] at hmem
    intro hmem'
    apply hmem
    simp only [List.mem_cons, List.mem_append] at hmem' ⊢
    rcases hmem' with hc | hmem' | hc
    · exact Or.inl hc
    · exact Or.inr (Or.inl (Text.mem_of_mem_trim hmem'))
    · exact Or.inr (Or.inr hc)
  · rw [ofContent_eq_name_iff, Text.trim_of_bare hbare]
    refine ⟨⟨by simp, ofSentinel?_eq_none hsentinel, by simp⟩, ?_⟩
    exact bracketed?_eq_some_iff.mpr ⟨Text.trim s, hn.1, rfl, (Text.trim_trim s).symm⟩

/-- What is read as a name between brackets is not the name of a section. -/
theorem isGroupName_of_bracketed {m n : Text} (h : ofContent ('[' :: (n ++ [']'])) = .name m) :
    IsGroupName n ∧ m = Text.trim n := by
  obtain ⟨⟨-, hsentinel, -⟩, hname⟩ := ofContent_eq_name_iff.mp h
  rw [Text.trim_of_bare (bare_bracketed n)] at hsentinel hname
  obtain ⟨s, hs, hsame, rfl⟩ := bracketed?_eq_some_iff.mp hname
  obtain rfl : n = s := List.append_cancel_right (List.cons.inj hsame).2
  refine ⟨⟨hs, ?_, ?_⟩, rfl⟩
  · rintro rfl
    exact absurd hsentinel (by decide)
  · rintro rfl
    exact absurd hsentinel (by decide)

theorem not_infix_arrow_concat {left : Text} (h : ¬['=', '>'] <:+: left) :
    ¬['=', '>'] <:+: Text.trimEnd left ++ [' '] := by
  intro harrow
  rcases List.infix_concat_iff.mp harrow with ⟨front, hfront⟩ | harrow
  · have hlast := congrArg List.getLast? hfront
    simp at hlast
  · exact h (harrow.trans (List.rdropWhile_prefix isWhite left).isInfix)

theorem arrow?_line {c : Char} {left right : Text} (hc : isWhite c = false)
    (hfree : ¬['=', '>'] <:+: left) :
    arrow? (Alias.line ⟨Text.trimEnd (c :: left), Text.trim right⟩) =
      some (Text.trimEnd (c :: left), Text.trim right) := by
  have hspace : isWhite ' ' = true := by decide
  have hline : Alias.line ⟨Text.trimEnd (c :: left), Text.trim right⟩ =
      c :: ((Text.trimEnd left ++ [' ']) ++ '=' :: '>' :: ' ' :: Text.trim right) := by
    simp [Alias.line, Text.trimEnd_cons_of_not_white hc]
  rw [hline, arrow?_cons_eq_some_iff]
  refine ⟨Text.trimEnd left ++ [' '], ' ' :: Text.trim right, ?_, ?_, ?_⟩
  · exact splitArrow?_eq_some_iff.mpr ⟨rfl, by simp, not_infix_arrow_concat hfree⟩
  · rw [Text.trimEnd_cons_of_not_white hc, Text.trimEnd_cons_of_not_white hc,
      Text.trimEnd_concat_of_white hspace, Text.trimEnd_trimEnd]
  · rw [Text.trim_cons_of_white hspace, Text.trim_trim]

/-- A written alias starts with the first character of what was read. -/
theorem Alias.head?_line {c : Char} (hc : isWhite c = false) (left target : Text) :
    (Alias.line ⟨Text.trimEnd (c :: left), target⟩).head? = some c := by
  simp [line, Text.trimEnd_cons_of_not_white hc]

theorem Alias.getLast?_line {e : Char} (he : isWhite e = false) (pattern front : Text) :
    (Alias.line ⟨pattern, Text.trim (front ++ [e])⟩).getLast? = some e := by
  have htrim : (Text.trim (front ++ [e])).getLast? = some e := Text.getLast?_trim (by simp) he
  simp [line, htrim, List.getLast?_append, List.getLast?_cons]

theorem Alias.not_mem_line {a : Alias} {d : Char} (hd : d ∉ [' ', '=', '>', ' '])
    (hpattern : d ∉ a.pattern) (htarget : d ∉ a.target) : d ∉ a.line := by
  rw [line, List.mem_append, List.mem_append]
  rintro ((hmem | hmem) | hmem)
  · exact hpattern hmem
  · exact hd hmem
  · exact htarget hmem

theorem readsAs_arrow {content : Text} {a : Alias} (hlf : '\n' ∉ content)
    (h : ofContent content = .arrow a.pattern a.target) :
    ReadsAs a.line (.arrow a.pattern a.target) := by
  obtain ⟨⟨hne, -, hcomment⟩, hname, harrow⟩ := ofContent_eq_arrow_iff.mp h
  have hbare := Text.bare_trim content
  have hmem : '\n' ∉ Text.trim content := fun hmem => hlf (Text.mem_of_mem_trim hmem)
  generalize Text.trim content = trimmed at hne hcomment hname harrow hbare hmem
  obtain ⟨c, r, rfl⟩ := List.exists_cons_of_ne_nil hne
  obtain ⟨left, right, hsplit, hpattern, htarget⟩ := arrow?_cons_eq_some_iff.mp harrow
  obtain ⟨rfl, hright, hfree⟩ := splitArrow?_eq_some_iff.mp hsplit
  obtain ⟨front, e, rfl⟩ : ∃ front e, right = front ++ [e] :=
    ⟨_, _, (List.dropLast_append_getLast hright).symm⟩
  obtain ⟨pattern, target⟩ := a
  obtain rfl : pattern = Text.trimEnd (c :: left) := hpattern
  obtain rfl : target = Text.trim (front ++ [e]) := htarget
  -- The written line starts and ends with the characters that the read line
  -- starts and ends with.
  have hc : isWhite c = false := hbare.1 c rfl
  have he : isWhite e = false := hbare.2 e (by simp [List.getLast?_cons])
  have hhead := Alias.head?_line hc left (Text.trim (front ++ [e]))
  have hlast := Alias.getLast?_line he (Text.trimEnd (c :: left)) front
  have hmem' : '\n' ∉ Alias.line ⟨Text.trimEnd (c :: left), Text.trim (front ++ [e])⟩ := by
    rw [← List.cons_append, List.mem_append, not_or] at hmem
    obtain ⟨hleft, hright⟩ := hmem
    refine Alias.not_mem_line (by decide) (mt Text.mem_of_mem_trimEnd hleft) fun hmem => hright ?_
    simp [Text.mem_of_mem_trim hmem]
  generalize hline : Alias.line ⟨Text.trimEnd (c :: left), Text.trim (front ++ [e])⟩ = line
    at hhead hlast hmem'
  have hbare' : Text.Bare line := by
    constructor
    · simp [hhead, hc]
    · simp [hlast, he]
  have hbracketed : ∀ s, line ≠ '[' :: (s ++ [']']) := by
    intro s hs
    have hopen : c = '[' := by simpa [hs] using hhead.symm
    have hclose : e = ']' := by simpa [hs, List.getLast?_cons] using hlast.symm
    refine bracketed?_eq_none_iff.mp hname (left ++ '=' :: '>' :: front) (by simp) ?_
    simp [hopen, hclose]
  refine ⟨isLine_of_not_white hmem' hbare'.2, ?_⟩
  rw [ofContent_eq_arrow_iff, Text.trim_of_bare hbare']
  refine ⟨⟨?_, ?_, ?_⟩, ?_, ?_⟩
  · rintro rfl
    cases hhead
  · apply ofSentinel?_eq_none
    intro opened heq
    obtain ⟨n, -, -, hopened⟩ := sentinel_bracketed opened
    exact hbracketed n (heq.trans hopened)
  · rw [hhead]
    exact hcomment
  · exact bracketed?_eq_none_iff.mpr fun s _ => hbracketed s
  · rw [← hline]
    exact arrow?_line hc hfree

end Marginalia.Keywords

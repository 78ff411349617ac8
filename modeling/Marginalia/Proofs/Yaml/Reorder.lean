import Marginalia.Proofs.Yaml.Patch

/-!
# When a reorder can be applied

A reorder makes the edits of two blocks and gives those of the order list first.
When the two keys stand apart the edits of both blocks form one chain, whichever
comes first in the document, with one exception.  The lines of a new flag map
are inserted where the line below its key starts.  If that line is the key of
the order list, and is rewritten, two edits start at one place, and they keep
the order in which they were given: the rewritten line comes before the
insertion in front of it.

`Patch.Clash` is that exception, and the main result says that nothing else goes
wrong.
-/

namespace Marginalia

namespace Yaml

def LineRange.Has (range : LineRange) (k : Nat) : Prop :=
  range.start ≤ k ∧ k < range.stop

instance (range : LineRange) (k : Nat) : Decidable (range.Has k) :=
  inferInstanceAs (Decidable (_ ∧ _))

namespace Patch

open Edit (Chain OnBoundaries Applies Refused)

/-- The key of the order list stands directly below the key of a flag map
without entries, and both change: there are entries to write, and the key of the
order list loses what stands between its colon and its comment. -/
def Clash (o : Outline) (stop orderIndex mapIndex : Nat) (entries : List (Text × Bool)) : Prop :=
  mapIndex + 1 = orderIndex ∧
    (o.body mapIndex stop .mapping).lines = ⟨mapIndex + 1, mapIndex + 1⟩ ∧
    entries ≠ [] ∧
    ∃ l k, o[orderIndex]? = some l ∧ KeyLine.ofLine? l = some k ∧
      k.head ++ k.comment ≠ l.line.content

/-! ## Edits that overlap -/

/-- An insertion at the start of an edit that was given before it is sorted
behind that edit. -/
theorem sortByStart_insertion {e d : Edit} {front back : List Edit}
    (hfront : front.Pairwise fun a b => a.span.start ≤ b.span.start)
    (hback : back.Pairwise fun a b => a.span.start ≤ b.span.start)
    (hbefore : ∀ a ∈ front, a.span.start < e.span.start)
    (hbehind : ∀ a ∈ back, e.span.start < a.span.start)
    (hsame : d.span.start = e.span.start) :
    Edit.sortByStart ((e :: back) ++ (front ++ [d])) = front ++ e :: d :: back := by
  have hgiven : (e :: back).Pairwise fun a b => a.span.start ≤ b.span.start :=
    List.Pairwise.cons (fun a ha => Nat.le_of_lt (hbehind a ha)) hback
  have hfirst : Edit.sortByStart ((e :: back) ++ front) = front ++ e :: back := by
    apply Edit.sortByStart_append_of_lt hgiven hfront
    intro a ha b hb
    have hb' := hbefore b hb
    rcases List.mem_cons.mp ha with rfl | ha
    · exact hb'
    · have ha' := hbehind a ha
      omega
  have hinsert : Edit.insertByStart d ((front ++ [e]) ++ back) = (front ++ [e]) ++ d :: back := by
    apply Edit.insertByStart_append
    · intro a ha
      rcases List.mem_append.mp ha with ha | ha
      · have ha' := hbefore a ha
        omega
      · rw [List.mem_singleton.mp ha, hsame]
    · intro a ha
      rw [hsame]
      exact hbehind a ha
  rw [← List.append_assoc, Edit.sortByStart_append, hfirst]
  simpa using hinsert

theorem fitsSorted_insertion_eq_false {t : Text} {e d : Edit} {front back : List Edit}
    (hfront : front.Pairwise fun a b => a.span.start ≤ b.span.start)
    (hback : back.Pairwise fun a b => a.span.start ≤ b.span.start)
    (hbefore : ∀ a ∈ front, a.span.start < e.span.start)
    (hbehind : ∀ a ∈ back, e.span.start < a.span.start)
    (hsame : d.span.start = e.span.start) (hspan : e.span.start < e.span.stop) :
    Edit.fitsSorted t 0 (Edit.sortByStart ((e :: back) ++ (front ++ [d]))) = false := by
  rw [sortByStart_insertion hfront hback hbefore hbehind hsame]
  cases hfits : Edit.fitsSorted t 0 (front ++ e :: d :: back) with
  | false => rfl
  | true =>
      have hle := Edit.le_of_fitsSorted hfits
      omega

/-! ## Edits that change something -/

variable {t : Text} {index stop : Nat} {kind : BodyKind} {l : OutlineLine}

theorem changes_contentSpan {insert : Text} (hline : (Outline.ofText t)[index]? = some l)
    (hinsert : insert ≠ l.line.content) :
    Edit.changes t ⟨l.line.contentSpan, insert⟩ = true := by
  have hslice := Text.slice_contentSpan (Outline.getElem?_ofText hline).1
  simpa [Edit.changes, hslice] using fun h => hinsert h.symm

theorem changes_insertion {n : Nat} {insert : Text} (hinsert : insert ≠ []) :
    Edit.changes t ⟨⟨n, n⟩, insert⟩ = true := by
  simpa [Edit.changes, Text.slice] using hinsert

/-- A key line loses what stands between its colon and its comment when there
are lines to write below it. -/
theorem headEdits_of_ne_nil {k : KeyLine} {rendered : List Text} {empty : Text}
    (hrendered : rendered ≠ []) :
    headEdits l k rendered empty =
      if k.head ++ k.comment = l.line.content then []
      else [⟨l.line.contentSpan, k.head ++ k.comment⟩] := by
  simp [headEdits, hrendered]

theorem orderLines_eq_nil_iff {o : Outline} {body : Body} {entries : List (Text × Bool)} :
    orderLines o body entries = [] ↔ entries = [] := by
  simp [orderLines]

theorem flagLines_eq_nil_iff {o : Outline} {body : Body} {entries : List (Text × Bool)} :
    flagLines o body entries = [] ↔ entries = [] := by
  simp [flagLines]

/-! ## Two blocks -/

/-- A body ends above every content line below its key that it does not have. -/
theorem body_stop_le_of_not_has {o : Outline} {i : Nat} (hindex : index < i)
    (hline : o[i]? = some l) (hcontent : l.isContent = true)
    (hout : ¬(o.body index stop kind).lines.Has i) : (o.body index stop kind).lines.stop ≤ i := by
  rcases Outline.body_cases o index stop kind with hempty | ⟨-, -, -, -, htrivia⟩
  · rw [hempty]
    exact hindex
  · by_cases hstart : i < (o.body index stop kind).lines.start
    · have hnone := htrivia i l hindex hstart hline
      rw [hcontent] at hnone
      cases hnone
    · by_cases hstop : i < (o.body index stop kind).lines.stop
      · exact absurd ⟨Nat.le_of_not_lt hstart, hstop⟩ hout
      · exact Nat.le_of_not_lt hstop

theorem start_of_mem_headEdits {k : KeyLine} {rendered : List Text} {empty : Text} {e : Edit}
    (hline : (Outline.ofText t)[index]? = some l) (he : e ∈ headEdits l k rendered empty) :
    e.span.start = t.lineOffset index := by
  rcases headEdits_cases l k rendered empty with hnone | ⟨head, hhead⟩
  · simp [hnone] at he
  · rw [hhead, List.mem_singleton] at he
    rw [he]
    exact Text.start_eq_lineOffset (Outline.getElem?_ofText hline).1

theorem onBoundaries_append {es ds : List Edit} (hes : OnBoundaries t es)
    (hds : OnBoundaries t ds) : OnBoundaries t (es ++ ds) := by
  intro e he
  rcases List.mem_append.mp he with he | he
  · exact hes e he
  · exact hds e he

section Blocks

variable {i j : Nat} {above below : OutlineLine} {aboveKey belowKey : KeyLine}
  {aboveKind belowKind : BodyKind} {aboveRendered belowRendered : List Text}
  {aboveEmpty belowEmpty : Text}

/-- The edits of a block start above those of a block below its body, unless
lines are inserted directly above a rewritten key line. -/
theorem start_lt_start
    (habove : (Outline.ofText t)[i]? = some above)
    (hbelow : (Outline.ofText t)[j]? = some below)
    (hij : i < j) (hjstop : j < stop)
    (hend : ((Outline.ofText t).body i stop aboveKind).lines.stop ≤ j)
    (hfree : ((Outline.ofText t).body i stop aboveKind).lines = ⟨i + 1, i + 1⟩ →
      aboveRendered ≠ [] → i + 1 = j → headEdits below belowKey belowRendered belowEmpty = []) :
    ∀ d ∈ blockEdits (Outline.ofText t) below belowKey
        ((Outline.ofText t).body j stop belowKind) belowRendered belowEmpty,
      ∀ e ∈ blockEdits (Outline.ofText t) above aboveKey
          ((Outline.ofText t).body i stop aboveKind) aboveRendered aboveEmpty,
        e.span.start < d.span.start := by
  intro d hd e he
  have hlength : j < t.lines.length := by
    have hlt := Outline.lt_length_of_getElem? hbelow
    rwa [Outline.length_ofText] at hlt
  have hbelowStart : t.lineOffset j ≤ d.span.start :=
    ((chain_blockEdits belowKind hbelow hjstop belowKey belowRendered belowEmpty).within hd).1
  have hlt : ∀ n, n < j → t.lineOffset n < d.span.start := by
    intro n hn
    have hoffset : t.lineOffset n < t.lineOffset j :=
      Text.lineOffset_lt_lineOffset hn (Nat.lt_trans hn hlength)
    exact Nat.lt_of_lt_of_le hoffset hbelowStart
  rw [blockEdits, List.mem_append] at he
  rcases he with he | he
  · rw [start_of_mem_headEdits habove he]
    exact hlt i hij
  · obtain ⟨text, -, ⟨-, -, hnone⟩ | ⟨hempty, hrendered, -, hinsert⟩ | ⟨hbody, hreplace⟩⟩ :=
      bodyEdits_cases habove (rfl : (Outline.ofText t).body i stop aboveKind = _) aboveRendered
    · simp [hnone] at he
    · rw [hinsert, List.mem_singleton] at he
      rw [he]
      by_cases hnext : i + 1 = j
      · -- The key line below is left alone, and its body starts behind it.
        have hhead := hfree hempty hrendered hnext
        rw [blockEdits, hhead, List.nil_append] at hd
        have hbodyStart : t.lineOffset (j + 1) ≤ d.span.start :=
          ((chain_bodyEdits belowKind hbelow hjstop belowRendered).within hd).1
        have hkey := Text.lineOffset_lt_succ hlength
        rw [hnext]
        exact Nat.lt_of_lt_of_le hkey hbodyStart
      · exact hlt (i + 1) (by omega)
    · rw [hreplace, List.mem_singleton] at he
      rw [he]
      exact hlt _ (Nat.lt_of_lt_of_le hbody hend)

/-- Edits of two blocks, those of the upper one given first. -/
theorem applies_of_given_first
    (habove : (Outline.ofText t)[i]? = some above)
    (hbelow : (Outline.ofText t)[j]? = some below)
    (histop : i < stop) (hjstop : j < stop)
    (hend : ((Outline.ofText t).body i stop aboveKind).lines.stop ≤ j) :
    Applies t
      (blockEdits (Outline.ofText t) above aboveKey
          ((Outline.ofText t).body i stop aboveKind) aboveRendered aboveEmpty ++
        blockEdits (Outline.ofText t) below belowKey
          ((Outline.ofText t).body j stop belowKind) belowRendered belowEmpty) := by
  have hfirst := chain_blockEdits aboveKind habove histop aboveKey aboveRendered aboveEmpty
  have hsecond := chain_blockEdits belowKind hbelow hjstop belowKey belowRendered belowEmpty
  have hchain := (hfirst.mono (Nat.le_refl _) (Text.lineOffset_le_lineOffset hend)).append hsecond
  have hcut := onBoundaries_append
    (onBoundaries_blockEdits stop aboveKind habove aboveKey aboveRendered aboveEmpty)
    (onBoundaries_blockEdits stop belowKind hbelow belowKey belowRendered belowEmpty)
  apply Edit.applies_of_chain hchain hcut
  intro p
  exact Edit.sortByStart_of_pairwise (hchain.filter p).pairwise

/-- Edits of two blocks, those of the lower one given first. -/
theorem applies_of_given_second
    (habove : (Outline.ofText t)[i]? = some above)
    (hbelow : (Outline.ofText t)[j]? = some below)
    (hij : i < j) (hjstop : j < stop)
    (hend : ((Outline.ofText t).body i stop aboveKind).lines.stop ≤ j)
    (hfree : ((Outline.ofText t).body i stop aboveKind).lines = ⟨i + 1, i + 1⟩ →
      aboveRendered ≠ [] → i + 1 = j → headEdits below belowKey belowRendered belowEmpty = []) :
    Applies t
      (blockEdits (Outline.ofText t) below belowKey
          ((Outline.ofText t).body j stop belowKind) belowRendered belowEmpty ++
        blockEdits (Outline.ofText t) above aboveKey
          ((Outline.ofText t).body i stop aboveKind) aboveRendered aboveEmpty) := by
  have histop : i < stop := Nat.lt_trans hij hjstop
  have hfirst := chain_blockEdits aboveKind habove histop aboveKey aboveRendered aboveEmpty
  have hsecond := chain_blockEdits belowKind hbelow hjstop belowKey belowRendered belowEmpty
  have hchain := (hfirst.mono (Nat.le_refl _) (Text.lineOffset_le_lineOffset hend)).append hsecond
  have hcut := onBoundaries_append
    (onBoundaries_blockEdits stop belowKind hbelow belowKey belowRendered belowEmpty)
    (onBoundaries_blockEdits stop aboveKind habove aboveKey aboveRendered aboveEmpty)
  apply Edit.applies_of_chain hchain hcut
  intro p
  rw [List.filter_append, List.filter_append]
  apply Edit.sortByStart_append_of_lt (hsecond.filter p).pairwise (hfirst.filter p).pairwise
  intro d hd e he
  exact start_lt_start habove hbelow hij hjstop hend hfree d (List.mem_filter.mp hd).1 e
    (List.mem_filter.mp he).1

/-- The rewritten key line and the insertion in front of it cannot both be
kept. -/
theorem fitsSorted_eq_false_of_clash {head : Text} {p : Edit → Bool}
    (habove : (Outline.ofText t)[i]? = some above)
    (hbelow : (Outline.ofText t)[i + 1]? = some below) (hstop : i + 1 < stop)
    (hempty : ((Outline.ofText t).body i stop aboveKind).lines = ⟨i + 1, i + 1⟩)
    (hrendered : aboveRendered ≠ []) (hcontent : below.line.content ≠ [])
    (hhead : headEdits below belowKey belowRendered belowEmpty =
      [⟨below.line.contentSpan, head⟩])
    (hkeep : ∀ e, Edit.changes t e = true → p e = true) (hchange : head ≠ below.line.content) :
    Edit.fitsSorted t 0 (Edit.sortByStart
      ((blockEdits (Outline.ofText t) below belowKey
          ((Outline.ofText t).body (i + 1) stop belowKind) belowRendered belowEmpty ++
        blockEdits (Outline.ofText t) above aboveKey
          ((Outline.ofText t).body i stop aboveKind) aboveRendered aboveEmpty).filter p)) =
      false := by
  obtain ⟨insert, hinsert, hbody⟩ : ∃ insert, insert ≠ [] ∧
      bodyEdits (Outline.ofText t) above ((Outline.ofText t).body i stop aboveKind)
        aboveRendered = [⟨⟨t.lineOffset (i + 1), t.lineOffset (i + 1)⟩, insert⟩] := by
    obtain ⟨text, -, ⟨-, hnone, -⟩ | ⟨-, -, hne, hinsert⟩ | ⟨hlt, -⟩⟩ :=
      bodyEdits_cases habove (rfl : (Outline.ofText t).body i stop aboveKind = _) aboveRendered
    · exact absurd hnone hrendered
    · exact ⟨text, hne, hinsert⟩
    · rw [hempty] at hlt
      exact absurd hlt (Nat.lt_irrefl _)
  have hbelowStart := Text.start_eq_lineOffset (Outline.getElem?_ofText hbelow).1
  have hkeepHead := hkeep _ (changes_contentSpan hbelow hchange)
  have hkeepBody := hkeep _ (changes_insertion (t := t) (n := t.lineOffset (i + 1)) hinsert)
  have hfront := chain_headEdits habove aboveKey aboveRendered aboveEmpty
  have hback := chain_bodyEdits belowKind hbelow hstop belowRendered
  have hi : i < t.lines.length := by
    have hlt := Outline.lt_length_of_getElem? habove
    rwa [Outline.length_ofText] at hlt
  have hj : i + 1 < t.lines.length := by
    have hlt := Outline.lt_length_of_getElem? hbelow
    rwa [Outline.length_ofText] at hlt
  rw [blockEdits, blockEdits, hhead, hbody, List.filter_append, List.filter_append,
    List.filter_append, List.filter_cons_of_pos hkeepHead, List.filter_cons_of_pos hkeepBody,
    List.filter_nil]
  apply fitsSorted_insertion_eq_false (hfront.filter p).pairwise (hback.filter p).pairwise
  · intro e he
    have hstart := start_of_mem_headEdits habove (List.mem_filter.mp he).1
    have hlt := Text.lineOffset_lt_succ hi
    simp only [Line.contentSpan, hbelowStart]
    omega
  · intro e he
    have hstart := (hback.within (List.mem_filter.mp he).1).1
    have hlt := Text.lineOffset_lt_succ hj
    simp only [Line.contentSpan, hbelowStart]
    omega
  · simp [Line.contentSpan, hbelowStart]
  · have hsize := Text.size_pos_of_ne_nil hcontent
    simpa [Line.contentSpan] using hsize

/-- Lines cannot be inserted directly above a rewritten key line whose edit was
given first. -/
theorem refused_of_insertion_above
    (habove : (Outline.ofText t)[i]? = some above)
    (hbelow : (Outline.ofText t)[i + 1]? = some below)
    (hkey : KeyLine.ofLine? below = some belowKey) (hstop : i + 1 < stop)
    (hempty : ((Outline.ofText t).body i stop aboveKind).lines = ⟨i + 1, i + 1⟩)
    (haboveRendered : aboveRendered ≠ []) (hbelowRendered : belowRendered ≠ [])
    (hchange : belowKey.head ++ belowKey.comment ≠ below.line.content) :
    Refused t
      (blockEdits (Outline.ofText t) below belowKey
          ((Outline.ofText t).body (i + 1) stop belowKind) belowRendered belowEmpty ++
        blockEdits (Outline.ofText t) above aboveKey
          ((Outline.ofText t).body i stop aboveKind) aboveRendered aboveEmpty) := by
  have hhead : headEdits below belowKey belowRendered belowEmpty =
      [⟨below.line.contentSpan, belowKey.head ++ belowKey.comment⟩] := by
    rw [headEdits_of_ne_nil hbelowRendered, if_neg hchange]
  have hcontent : below.line.content ≠ [] := by
    rw [(Outline.getElem?_ofText hbelow).2] at hkey
    exact KeyLine.content_ne_nil_of_ofLine? hkey
  apply Edit.refused_of_not_fitsSorted
  intro p hkeep
  exact fitsSorted_eq_false_of_clash habove hbelow hstop hempty haboveRendered hcontent hhead hkeep
    hchange

end Blocks

/-! ## Both blocks of a reorder -/

/-- Without a clash the order key, below a new flag map, is not rewritten. -/
theorem headEdits_eq_nil_of_not_clash {o : Outline} {orderIndex mapIndex : Nat}
    {entries : List (Text × Bool)} {k : KeyLine} {rendered : List Text} {empty : Text}
    (hclash : ¬Clash o stop orderIndex mapIndex entries)
    (hline : o[orderIndex]? = some l) (hkey : KeyLine.ofLine? l = some k)
    (hempty : (o.body mapIndex stop .mapping).lines = ⟨mapIndex + 1, mapIndex + 1⟩)
    (hentries : entries ≠ []) (hrendered : rendered ≠ []) (hnext : mapIndex + 1 = orderIndex) :
    headEdits l k rendered empty = [] := by
  rw [headEdits_of_ne_nil hrendered]
  by_cases hsame : k.head ++ k.comment = l.line.content
  · exact if_pos hsame
  · exact absurd ⟨hnext, hempty, hentries, l, k, hline, hkey, hsame⟩ hclash

theorem exists_of_reorder_of_locate {t module orderPath mapPath : Text}
    {entries : List (Text × Bool)} {es : List Edit} {range range' : LineRange}
    {orderIndex mapIndex : Nat}
    (h : reorder t module orderPath mapPath entries = .ok es)
    (horder : (Outline.ofText t).locate module orderPath = .ok (range, orderIndex))
    (hmap : (Outline.ofText t).locate module mapPath = .ok (range', mapIndex)) :
    range = range' ∧ ∃ orderLine orderKey mapLine mapKey,
      (Outline.ofText t)[orderIndex]? = some orderLine ∧
      KeyLine.ofLine? orderLine = some orderKey ∧
      (Outline.ofText t)[mapIndex]? = some mapLine ∧
      KeyLine.ofLine? mapLine = some mapKey ∧
      es =
        blockEdits (Outline.ofText t) orderLine orderKey
          ((Outline.ofText t).body orderIndex range.stop .sequence)
          (orderLines (Outline.ofText t)
            ((Outline.ofText t).body orderIndex range.stop .sequence) entries) ['[', ']'] ++
        blockEdits (Outline.ofText t) mapLine mapKey
          ((Outline.ofText t).body mapIndex range.stop .mapping)
          (flagLines (Outline.ofText t)
            ((Outline.ofText t).body mapIndex range.stop .mapping) entries) ['\x7b', '\x7d'] := by
  obtain ⟨range₀, orderIndex₀, range₁, mapIndex₁, orderLine, orderKey, mapLine, mapKey, horder₀,
    hmap₁, horderKey, hmapKey, hes⟩ := exists_of_reorder_eq_ok h
  obtain ⟨rfl, rfl⟩ : range = range₀ ∧ orderIndex = orderIndex₀ := by
    rw [horder] at horder₀
    exact Prod.mk.inj (Except.ok.inj horder₀)
  obtain ⟨rfl, rfl⟩ : range' = range₁ ∧ mapIndex = mapIndex₁ := by
    rw [hmap] at hmap₁
    exact Prod.mk.inj (Except.ok.inj hmap₁)
  obtain ⟨horderLine, horderParts⟩ := keyLine_eq_ok_iff.mp horderKey
  obtain ⟨hmapLine, hmapParts⟩ := keyLine_eq_ok_iff.mp hmapKey
  have hrange : range = range' := by
    have hmodule := (Outline.locate_eq_ok_iff.mp horder).1
    have hmodule' := (Outline.locate_eq_ok_iff.mp hmap).1
    rw [hmodule] at hmodule'
    exact Except.ok.inj hmodule'
  exact ⟨hrange, orderLine, orderKey, mapLine, mapKey, horderLine, horderParts, hmapLine,
    hmapParts, hes⟩

/-- The edits of a reorder of two keys, neither of which stands in the other's
body, are refused when the two blocks clash and can be applied when they do
not. -/
theorem applies_or_refused {t module orderPath mapPath : Text}
    {entries : List (Text × Bool)} {es : List Edit} {range range' : LineRange}
    {orderIndex mapIndex : Nat}
    (h : reorder t module orderPath mapPath entries = .ok es)
    (horder : (Outline.ofText t).locate module orderPath = .ok (range, orderIndex))
    (hmap : (Outline.ofText t).locate module mapPath = .ok (range', mapIndex))
    (hne : orderIndex ≠ mapIndex)
    (horderOut : ¬((Outline.ofText t).body mapIndex range.stop .mapping).lines.Has orderIndex)
    (hmapOut : ¬((Outline.ofText t).body orderIndex range.stop .sequence).lines.Has mapIndex) :
    ¬Clash (Outline.ofText t) range.stop orderIndex mapIndex entries ∧ Applies t es ∨
      Clash (Outline.ofText t) range.stop orderIndex mapIndex entries ∧ Refused t es := by
  obtain ⟨rfl, orderLine, orderKey, mapLine, mapKey, horderLine, horderParts, hmapLine,
    hmapParts, hes⟩ := exists_of_reorder_of_locate h horder hmap
  have horderStop := (Outline.locate_bounds horder).2.1
  have hmapStop := (Outline.locate_bounds hmap).2.1
  have hrendered : entries ≠ [] → orderLines (Outline.ofText t)
      ((Outline.ofText t).body orderIndex range.stop .sequence) entries ≠ [] :=
    fun hentries hnil => hentries (orderLines_eq_nil_iff.mp hnil)
  rw [hes]
  rcases Nat.lt_or_gt_of_ne hne with hlt | hgt
  · refine Or.inl ⟨?_, ?_⟩
    · rintro ⟨hnext, -⟩
      omega
    · apply applies_of_given_first horderLine hmapLine horderStop hmapStop
      exact body_stop_le_of_not_has hlt hmapLine (KeyLine.isContent_of_ofLine? hmapParts) hmapOut
  · by_cases hclash : Clash (Outline.ofText t) range.stop orderIndex mapIndex entries
    · refine Or.inr ⟨hclash, ?_⟩
      obtain ⟨rfl, hempty, hentries, l, k, hl, hk, hsame⟩ := hclash
      obtain rfl : orderLine = l := Option.some.inj (horderLine.symm.trans hl)
      obtain rfl : orderKey = k := Option.some.inj (horderParts.symm.trans hk)
      exact refused_of_insertion_above hmapLine horderLine horderParts horderStop hempty
        (fun hnil => hentries (flagLines_eq_nil_iff.mp hnil)) (hrendered hentries) hsame
    · refine Or.inl ⟨hclash, ?_⟩
      apply applies_of_given_second hmapLine horderLine hgt horderStop
      · exact body_stop_le_of_not_has hgt horderLine (KeyLine.isContent_of_ofLine? horderParts)
          horderOut
      · intro hempty hflags hnext
        have hentries : entries ≠ [] := fun hnil => hflags (flagLines_eq_nil_iff.mpr hnil)
        exact headEdits_eq_nil_of_not_clash hclash horderLine horderParts hempty hentries
          (hrendered hentries) hnext

/-- A reorder of two keys, neither of which stands in the other's body, can be
applied exactly when the two blocks do not clash. -/
theorem reorder_applies_iff_not_clash {t module orderPath mapPath : Text}
    {entries : List (Text × Bool)} {es : List Edit} {range range' : LineRange}
    {orderIndex mapIndex : Nat}
    (h : reorder t module orderPath mapPath entries = .ok es)
    (horder : (Outline.ofText t).locate module orderPath = .ok (range, orderIndex))
    (hmap : (Outline.ofText t).locate module mapPath = .ok (range', mapIndex))
    (hne : orderIndex ≠ mapIndex)
    (horderOut : ¬((Outline.ofText t).body mapIndex range.stop .mapping).lines.Has orderIndex)
    (hmapOut : ¬((Outline.ofText t).body orderIndex range.stop .sequence).lines.Has mapIndex) :
    ((Edit.applyAll? es t).isSome = true ↔
        ¬Clash (Outline.ofText t) range.stop orderIndex mapIndex entries) ∧
      ∀ b : Buffer, b.text = t → (b.accepts es = true ↔
        ¬Clash (Outline.ofText t) range.stop orderIndex mapIndex entries) := by
  rcases applies_or_refused h horder hmap hne horderOut hmapOut with
    ⟨hclash, happlies, haccepts⟩ | ⟨hclash, hrefused, hrejects⟩
  · exact ⟨iff_of_true happlies hclash, fun b hb => iff_of_true (haccepts b hb) hclash⟩
  · have hnot := not_not_intro hclash
    exact ⟨iff_of_false hrefused hnot, fun b hb => iff_of_false (hrejects b hb) hnot⟩

/-- Flags with entries above their order list. -/
theorem reorder_applies_below_entries :
    ∃ es, reorder "m:\n  map:\n    b: true\n  order: []\n".toList "m".toList "order".toList
        "map".toList [("a".toList, true)] = .ok es ∧
      (Edit.applyAll? es "m:\n  map:\n    b: true\n  order: []\n".toList).isSome = true := by
  obtain ⟨es, hes⟩ : ∃ es, reorder "m:\n  map:\n    b: true\n  order: []\n".toList "m".toList
      "order".toList "map".toList [("a".toList, true)] = .ok es := ⟨_, rfl⟩
  have horder : (Outline.ofText "m:\n  map:\n    b: true\n  order: []\n".toList).locate
      "m".toList "order".toList = .ok (⟨0, 4⟩, 3) := by decide
  have hmap : (Outline.ofText "m:\n  map:\n    b: true\n  order: []\n".toList).locate
      "m".toList "map".toList = .ok (⟨0, 4⟩, 1) := by decide
  have hiff := reorder_applies_iff_not_clash hes horder hmap (by decide) (by decide) (by decide)
  refine ⟨es, hes, hiff.1.mpr ?_⟩
  rintro ⟨hnext, -⟩
  exact absurd hnext (by decide)

/-- Empty flags directly above their order list. -/
theorem reorder_refused_below_empty_flags :
    ∃ es, reorder "m:\n  map: \x7b\x7d\n  order: []\n".toList "m".toList "order".toList
          "map".toList [("a".toList, true)] = .ok es ∧
      (Outline.ofText "m:\n  map: \x7b\x7d\n  order: []\n".toList).locate "m".toList
        "order".toList = .ok (⟨0, 3⟩, 2) ∧
      (Outline.ofText "m:\n  map: \x7b\x7d\n  order: []\n".toList).locate "m".toList
        "map".toList = .ok (⟨0, 3⟩, 1) ∧
      ¬((Outline.ofText "m:\n  map: \x7b\x7d\n  order: []\n".toList).body 1 3
        .mapping).lines.Has 2 ∧
      ¬((Outline.ofText "m:\n  map: \x7b\x7d\n  order: []\n".toList).body 2 3
        .sequence).lines.Has 1 ∧
      Edit.applyAll? es "m:\n  map: \x7b\x7d\n  order: []\n".toList = none :=
  ⟨_, rfl, by decide, by decide, by decide, by decide, by decide⟩

end Patch

end Yaml

end Marginalia

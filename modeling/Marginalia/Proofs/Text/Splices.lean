import Marginalia.Proofs.Text.Edits
import Mathlib.Data.List.Chain
import Mathlib.Data.List.Forall2

/-!
# Edits in one pass and one by one

Edits that do not overlap can be applied in three ways: in one pass over the
text, one at a time from the last to the first, or by a buffer, which leaves out
those that change nothing.  All three give the same text.  `Edit.Apart` says
when edits do not overlap, and `Buffer.Splices` says what a buffer does with
them: its text, its version, and the spans where the inserted texts have come to
stand.
-/

namespace Marginalia

namespace Text

/-! ## Cuts -/

theorem size_before {t : Text} {n : Nat} (h : t.isBoundary n = true) : (before n t).size = n := by
  simpa [isBoundary] using h

/-- The text before a cut is the text before an earlier cut and what stands
between the two. -/
theorem before_eq_append_slice {t : Text} {m n : Nat} (hm : t.isBoundary m = true) (hmn : m ≤ n) :
    before n t = before m t ++ slice t m n := by
  have hsize := size_before hm
  have hcut := Edit.before_append_of_le (hsize.trans_le hmn) (after m t)
  rwa [before_append_after, hsize] at hcut

theorem after_eq_slice_append {t : Text} {m n : Nat} (hm : t.isBoundary m = true) (hmn : m ≤ n) :
    after m t = slice t m n ++ after n t := by
  have hwhole : before m t ++ after m t = before m t ++ (slice t m n ++ after n t) := by
    rw [before_append_after, ← List.append_assoc, ← before_eq_append_slice hm hmn,
      before_append_after]
  exact List.append_cancel_left hwhole

theorem size_slice {t : Text} {m n : Nat} (hm : t.isBoundary m = true) (hn : t.isBoundary n = true)
    (hmn : m ≤ n) : (slice t m n).size = n - m := by
  have hsize := congrArg size (before_eq_append_slice hm hmn)
  rw [size_append, size_before hm, size_before hn] at hsize
  omega

theorem slice_append_slice {t : Text} {l m n : Nat} (hl : t.isBoundary l = true)
    (hm : t.isBoundary m = true) (hlm : l ≤ m) (hmn : m ≤ n) :
    slice t l m ++ slice t m n = slice t l n := by
  have hwhole := before_eq_append_slice hl (hlm.trans hmn)
  rw [before_eq_append_slice hm hmn, before_eq_append_slice hl hlm, List.append_assoc] at hwhole
  exact List.append_cancel_left hwhole

/-- The middle part of a text is what stands between its two cuts. -/
theorem slice_middle (s middle t : Text) :
    slice (s ++ middle ++ t) s.size (s.size + middle.size) = middle := by
  rw [slice, List.append_assoc, after_size_append, Nat.add_sub_cancel_left, before_size_append]

theorem le_size_of_isBoundary {t : Text} {n : Nat} (h : t.isBoundary n = true) : n ≤ t.size := by
  have hsize := congrArg size (before_append_after n t)
  rw [size_append, size_before h] at hsize
  omega

end Text

namespace Edit

/-! ## Sorting and leaving out -/

theorem pairwise_insertByStart {e : Edit} {es : List Edit}
    (h : es.Pairwise fun d e => d.span.start ≤ e.span.start) :
    (insertByStart e es).Pairwise fun d e => d.span.start ≤ e.span.start := by
  induction es with
  | nil => exact List.pairwise_singleton _ e
  | cons d ds ih =>
      obtain ⟨hd, hds⟩ := List.pairwise_cons.mp h
      by_cases hle : d.span.start ≤ e.span.start
      · rw [insertByStart, if_pos hle, List.pairwise_cons]
        refine ⟨?_, ih hds⟩
        intro c hc
        rcases mem_insertByStart.mp hc with rfl | hc
        · exact hle
        · exact hd c hc
      · rw [insertByStart, if_neg hle, List.pairwise_cons]
        refine ⟨?_, h⟩
        intro c hc
        rcases List.mem_cons.mp hc with rfl | hc
        · exact Nat.le_of_not_le hle
        · exact (Nat.le_of_not_le hle).trans (hd c hc)

theorem filter_insertByStart {e : Edit} {es : List Edit} (p : Edit → Bool)
    (h : es.Pairwise fun d e => d.span.start ≤ e.span.start) :
    (insertByStart e es).filter p =
      if p e then insertByStart e (es.filter p) else es.filter p := by
  induction es with
  | nil =>
      by_cases hp : p e = true
      · simp [insertByStart, hp]
      · simp [insertByStart, hp]
  | cons d ds ih =>
      obtain ⟨hd, hds⟩ := List.pairwise_cons.mp h
      have hrest := ih hds
      by_cases hle : d.span.start ≤ e.span.start
      · rw [insertByStart, if_pos hle, List.filter_cons, List.filter_cons, hrest]
        by_cases hkeep : p d = true
        · by_cases hp : p e = true
          · simp [hkeep, hp, insertByStart, hle]
          · simp [hkeep, hp]
        · simp [hkeep]
      · rw [insertByStart, if_neg hle, List.filter_cons]
        -- every edit of the list starts later, whichever of them are left out
        have hlater : ∀ c ∈ (d :: ds).filter p, e.span.start < c.span.start := by
          intro c hc
          rcases List.mem_cons.mp (List.mem_filter.mp hc).1 with rfl | hc
          · exact Nat.lt_of_not_le hle
          · exact (Nat.lt_of_not_le hle).trans_le (hd c hc)
        have hfront := insertByStart_append (List.forall_mem_nil _) hlater
        rw [List.nil_append, List.nil_append] at hfront
        rw [hfront]

/-- Leaving out edits and sorting them may be done in either order. -/
theorem sortByStart_filter (es : List Edit) (p : Edit → Bool) :
    sortByStart (es.filter p) = (sortByStart es).filter p := by
  have hfold : ∀ (es sorted : List Edit), sorted.Pairwise (fun d e => d.span.start ≤ e.span.start) →
      (es.filter p).foldl (fun sorted e => insertByStart e sorted) (sorted.filter p) =
        (es.foldl (fun sorted e => insertByStart e sorted) sorted).filter p := by
    intro es
    induction es with
    | nil => exact fun _ _ => rfl
    | cons e es ih =>
        intro sorted hsorted
        rw [List.foldl_cons, ← ih _ (pairwise_insertByStart hsorted),
          filter_insertByStart p hsorted, List.filter_cons]
        by_cases hp : p e = true
        · simp [hp]
        · simp [hp]
  exact hfold es [] List.Pairwise.nil

/-! ## Edits that do not overlap -/

/-- Edits whose spans lie in a text and cut no character, and of which, in the
order of their starts, each stops before the next one starts. -/
structure Apart (t : Text) (es : List Edit) : Prop where
  span_le : ∀ e ∈ es, e.span.start ≤ e.span.stop
  onBoundaries : OnBoundaries t es
  isChain : (sortByStart es).IsChain fun d e => d.span.stop ≤ e.span.start

variable {t : Text} {low high : Nat} {es : List Edit}

theorem chain_of_isChain (hspan : ∀ e ∈ es, e.span.start ≤ e.span.stop)
    (hhigh : ∀ e ∈ es, e.span.stop ≤ high) (hlow : ∀ e ∈ es.head?, low ≤ e.span.start)
    (hempty : low ≤ high) (hchain : es.IsChain fun d e => d.span.stop ≤ e.span.start) :
    Chain low high es := by
  induction es generalizing low with
  | nil => exact hempty
  | cons e es ih =>
      obtain ⟨hnext, hrest⟩ := List.isChain_cons.mp hchain
      refine ⟨hlow e rfl, hspan e (by simp), ?_⟩
      exact ih (fun d hd => hspan d (by simp [hd])) (fun d hd => hhigh d (by simp [hd])) hnext
        (hhigh e (by simp)) hrest

theorem Apart.chain (h : Apart t es) : Chain 0 t.size (sortByStart es) := by
  have hmem : ∀ e ∈ sortByStart es, e ∈ es := fun e he => mem_sortByStart.mp he
  apply chain_of_isChain _ _ (fun _ _ => Nat.zero_le _) (Nat.zero_le _) h.isChain
  · exact fun e he => h.span_le e (hmem e he)
  · exact fun e he => Text.le_size_of_isBoundary (h.onBoundaries e (hmem e he)).2

theorem Apart.onBoundaries_sortByStart (h : Apart t es) : OnBoundaries t (sortByStart es) :=
  fun e he => h.onBoundaries e (mem_sortByStart.mp he)

theorem Apart.applies (h : Apart t es) : Applies t es :=
  applies_of_chain h.chain h.onBoundaries (sortByStart_filter es)

/-- Edits that can be applied at once do not overlap. -/
theorem apart_of_fitsSorted (hspan : ∀ e ∈ es, e.span.start ≤ e.span.stop)
    (hfits : fitsSorted t 0 (sortByStart es) = true) : Apart t es := by
  have hsorted : ∀ (es : List Edit) (cursor : Nat), fitsSorted t cursor es = true →
      t.isBoundary cursor = true ∧ OnBoundaries t es ∧
        (∀ e ∈ es.head?, cursor ≤ e.span.start) ∧
        es.IsChain fun d e => d.span.stop ≤ e.span.start := by
    intro es
    induction es with
    | nil => exact fun cursor h => ⟨h, by simp [OnBoundaries], by simp, List.isChain_nil⟩
    | cons e es ih =>
        intro cursor h
        simp only [fitsSorted, Bool.and_eq_true, decide_eq_true_eq] at h
        obtain ⟨⟨⟨hle, hcursor⟩, hstart⟩, hrest⟩ := h
        obtain ⟨hstop, hcut, hnext, hchain⟩ := ih e.span.stop hrest
        refine ⟨hcursor, ?_, by simpa using hle, List.isChain_cons.mpr ⟨hnext, hchain⟩⟩
        intro d hd
        rcases List.mem_cons.mp hd with rfl | hd
        · exact ⟨hstart, hstop⟩
        · exact hcut d hd
  obtain ⟨-, hcut, -, hchain⟩ := hsorted _ 0 hfits
  exact ⟨hspan, fun e he => hcut e (mem_sortByStart.mpr he), hchain⟩

/-! ## One by one -/

/-- The text from a place on is what stands before a later place and the text
from there on. -/
theorem applySorted_eq_slice_append {cursor : Nat} (hcursor : t.isBoundary cursor = true)
    (hlow : t.isBoundary low = true) (hle : cursor ≤ low) (h : Chain low high es) :
    applySorted t cursor es = Text.slice t cursor low ++ applySorted t low es := by
  cases es with
  | nil => exact Text.after_eq_slice_append hcursor hle
  | cons e es =>
      rw [applySorted, applySorted, ← Text.slice_append_slice hcursor hlow hle h.1]
      simp

/-- Edits down to a place and edits from there on: what the first ones make of
the text above does not depend on the others. -/
theorem exists_applySorted_append_eq {middle : Nat} (hlow : t.isBoundary low = true)
    (hmiddle : t.isBoundary middle = true) (hcut : OnBoundaries t es) (h : Chain low middle es) :
    ∃ x, applySorted t low es = x ++ Text.after middle t ∧
      ∀ ds high, Chain middle high ds →
        applySorted t low (es ++ ds) = x ++ applySorted t middle ds := by
  induction es generalizing low with
  | nil =>
      refine ⟨Text.slice t low middle, Text.after_eq_slice_append hlow h, fun ds high hds => ?_⟩
      exact applySorted_eq_slice_append hlow hmiddle h hds
  | cons e es ih =>
      obtain ⟨-, -, hrest⟩ := h
      obtain ⟨x, halone, hboth⟩ := ih (hcut e (by simp)).2 (fun d hd => hcut d (by simp [hd])) hrest
      refine ⟨Text.slice t low e.span.start ++ e.insert ++ x, ?_, fun ds high hds => ?_⟩
      · rw [applySorted, halone, List.append_assoc _ x]
      · rw [List.cons_append, applySorted, hboth ds high hds, List.append_assoc _ x]

/-- Edits down to a place and edits from there on: what each part makes of its
side of the text stands in the text that both make. -/
theorem applySorted_append {middle : Nat} {ds : List Edit} {x y : Text}
    (hmiddle : t.isBoundary middle = true) (hcut : OnBoundaries t es) (hes : Chain 0 middle es)
    (hds : Chain middle high ds) (hx : applySorted t 0 es = x ++ Text.after middle t)
    (hy : applySorted t 0 ds = Text.before middle t ++ y) :
    applySorted t 0 (es ++ ds) = x ++ y := by
  obtain ⟨x', halone, hboth⟩ :=
    exists_applySorted_append_eq (isBoundary_zero t) hmiddle hcut hes
  obtain rfl : x' = x := List.append_cancel_right (halone.symm.trans hx)
  have hfront : Text.slice t 0 middle = Text.before middle t := by
    rw [Text.slice, Text.after_zero, Nat.sub_zero]
  rw [applySorted_eq_slice_append (isBoundary_zero t) hmiddle (Nat.zero_le _) hds, hfront] at hy
  rw [hboth ds high hds, List.append_cancel_left hy]

/-- Edits applied from the last one to the first one. -/
theorem foldr_apply (hlow : t.isBoundary low = true) (hcut : OnBoundaries t es)
    (h : Chain low high es) : es.foldr apply t = Text.before low t ++ applySorted t low es := by
  induction es generalizing low with
  | nil => exact (Text.before_append_after low t).symm
  | cons e es ih =>
      obtain ⟨hstart, hspan, hrest⟩ := h
      obtain ⟨hcutStart, hcutStop⟩ := hcut e (by simp)
      have hlater := ih hcutStop (fun d hd => hcut d (by simp [hd])) hrest
      -- the later edits leave the text before the end of this one as it is
      have hsize := Text.size_before hcutStop
      have hkept : Text.before e.span.start (Text.before e.span.stop t ++
          applySorted t e.span.stop es) = Text.before e.span.start t := by
        have hfront := Text.before_size_append (Text.before e.span.start t)
          (Text.slice t e.span.start e.span.stop ++ applySorted t e.span.stop es)
        rwa [Text.size_before hcutStart, ← List.append_assoc,
          ← Text.before_eq_append_slice hcutStart hspan] at hfront
      have hleft : Text.after e.span.stop (Text.before e.span.stop t ++
          applySorted t e.span.stop es) = applySorted t e.span.stop es := by
        have hback := Text.after_size_append (Text.before e.span.stop t)
          (applySorted t e.span.stop es)
        rwa [hsize] at hback
      rw [List.foldr_cons, hlater, apply, hkept, hleft, applySorted,
        Text.before_eq_append_slice hlow hstart]
      simp

/-! ## Without the edits that change nothing -/

theorem applySorted_filter_changes (hlow : t.isBoundary low = true) (hcut : OnBoundaries t es)
    (h : Chain low high es) :
    applySorted t low (es.filter (changes t)) = applySorted t low es := by
  induction es generalizing low with
  | nil => rfl
  | cons e es ih =>
      obtain ⟨hstart, hspan, hrest⟩ := h
      obtain ⟨hcutStart, hcutStop⟩ := hcut e (by simp)
      have hlater := ih hcutStop (fun d hd => hcut d (by simp [hd])) hrest
      by_cases hchanges : changes t e = true
      · rw [List.filter_cons_of_pos hchanges, applySorted, applySorted, hlater]
      · have hsame : Text.slice t e.span.start e.span.stop = e.insert := by
          simpa [changes] using hchanges
        rw [List.filter_cons_of_neg hchanges,
          applySorted_eq_slice_append hlow hcutStop (hstart.trans hspan)
            (hrest.filter (changes t)), hlater, applySorted, ← hsame,
          Text.slice_append_slice hlow hcutStart hstart hspan]

/-! ## Where the inserted texts stand -/

/-- Behind a text that the earlier edits have made, sorted edits land where they
are counted to land, one behind the other, and each inserted text stands
there. -/
theorem landing_spec {made : Text} {added removed : Nat} (hlow : t.isBoundary low = true)
    (hcut : OnBoundaries t es) (h : Chain low high es)
    (hmade : made.size + removed = low + added) :
    List.Forall₂ (fun e s => Text.slice (made ++ applySorted t low es) s.start s.stop = e.insert)
        es (landing added removed es) ∧
      (∀ s ∈ (landing added removed es).head?, made.size ≤ s.start) ∧
      (landing added removed es).IsChain fun s s' => s.stop ≤ s'.start := by
  induction es generalizing low made added removed with
  | nil => exact ⟨List.Forall₂.nil, by simp [landing], List.isChain_nil⟩
  | cons e es ih =>
      obtain ⟨hstart, hspan, hrest⟩ := h
      obtain ⟨hcutStart, hcutStop⟩ := hcut e (by simp)
      have hgap := Text.size_slice hlow hcutStart hstart
      generalize hkept : Text.slice t low e.span.start = kept at hgap
      have hplace : e.span.start + added - removed = (made ++ kept).size := by
        rw [Text.size_append]
        omega
      have hmade' : (made ++ kept ++ e.insert).size + (removed + e.span.size) =
          e.span.stop + (added + e.insert.size) := by
        rw [Text.size_append, Text.size_append, Span.size]
        omega
      obtain ⟨hslices, hnext, hchain⟩ :=
        ih hcutStop (fun d hd => hcut d (by simp [hd])) hrest hmade'
      have htext : made ++ applySorted t low (e :: es) =
          made ++ kept ++ e.insert ++ applySorted t e.span.stop es := by
        simp [applySorted, hkept]
      rw [htext, landing, hplace]
      refine ⟨List.Forall₂.cons (Text.slice_middle _ _ _) hslices, ?_, ?_⟩
      · simp
      · refine List.isChain_cons.mpr ⟨?_, hchain⟩
        intro s hs
        have hbehind := hnext s hs
        rwa [Text.size_append] at hbehind

end Edit

namespace Buffer

/-- What a buffer does with edits: the text is the one that they give at once,
the version counts whether any of them changes something, and those that do are
found in the new text, in the order of their starts. -/
structure Splices (b : Buffer) (es : List Edit) : Prop where
  accepts : b.accepts es = true
  text_eq : (b.apply es).2.text = Edit.applyAll es b.text
  version_eq : (b.apply es).2.version =
    b.version + if es.any (Edit.changes b.text) then 1 else 0
  patch_version_eq : (b.apply es).1.version = (b.apply es).2.version
  slice_changed : List.Forall₂
    (fun e s => Text.slice (b.apply es).2.text s.start s.stop = e.insert)
    ((Edit.sortByStart es).filter (Edit.changes b.text)) (b.apply es).1.changed
  isChain_changed : (b.apply es).1.changed.IsChain fun s s' => s.stop ≤ s'.start

/-- A buffer that drops the edits that change nothing gives the text that all
edits give. -/
theorem splices_of_apart {b : Buffer} {es : List Edit} (h : Edit.Apart b.text es) :
    b.Splices es := by
  have hzero := Edit.isBoundary_zero b.text
  have hcut := h.onBoundaries_sortByStart
  have heffective := Edit.sortByStart_filter es (Edit.changes b.text)
  have htext : Edit.applySorted b.text 0 ((Edit.sortByStart es).filter (Edit.changes b.text)) =
      Edit.applyAll es b.text := Edit.applySorted_filter_changes hzero hcut h.chain
  have hchain := h.chain.filter (Edit.changes b.text)
  have hany : es.any (Edit.changes b.text) = true ↔
      (Edit.sortByStart es).filter (Edit.changes b.text) ≠ [] := by
    rw [List.any_eq_true, ne_eq, List.filter_eq_nil_iff]
    simp [Edit.mem_sortByStart]
  have haccepts := h.applies.2 b rfl
  cases hsorted : (Edit.sortByStart es).filter (Edit.changes b.text) with
  | nil =>
      have hnone : ¬es.any (Edit.changes b.text) = true := fun hsome => hany.mp hsome hsorted
      have happly : b.apply es = (b.noop, b) := by simp [apply, heffective, hsorted]
      rw [hsorted] at htext
      refine ⟨haccepts, ?_, ?_, ?_, ?_, ?_⟩
      · rw [happly, ← htext]
        simp [Edit.applySorted]
      · rw [happly, if_neg hnone]
        rfl
      · rw [happly]
        rfl
      · rw [happly, hsorted]
        exact List.Forall₂.nil
      · rw [happly]
        exact List.isChain_nil
  | cons e rest =>
      have hsome : es.any (Edit.changes b.text) = true := hany.mpr (by simp [hsorted])
      have happly : b.apply es = (⟨Edit.landing 0 0 (e :: rest), b.version + 1⟩,
          { b with text := Edit.applySorted b.text 0 (e :: rest), version := b.version + 1 }) := by
        simp [apply, heffective, hsorted]
      rw [hsorted] at htext hchain
      have hempty : Text.size [] + 0 = 0 + 0 := rfl
      obtain ⟨hslices, -, hbehind⟩ := Edit.landing_spec hzero
        (fun d hd => hcut d (List.mem_filter.mp (hsorted ▸ hd)).1) hchain hempty
      refine ⟨haccepts, ?_, ?_, ?_, ?_, ?_⟩
      · rw [happly, htext]
      · rw [happly, if_pos hsome]
      · rw [happly]
      · rw [happly, hsorted]
        exact hslices
      · rw [happly]
        exact hbehind

end Buffer

end Marginalia

import Marginalia.Proofs.Text.Lines
import Marginalia.Text.Buffer

/-!
# Edits that can be applied together

`Edit.Chain` says that edits follow one another between two byte offsets.  A
chain is sorted already, it can be applied, and a buffer accepts it.  The order
in which edits are given matters only for those that start at one place, so two
chains of which the second one starts before the first are applied as one chain.

The last section is about what edits leave alone: the text before all of them
and the text behind all of them.
-/

namespace Marginalia.Edit

/-- Edits that follow one another between the byte offsets `low` and `high`. -/
def Chain (low high : Nat) : List Edit → Prop
  | [] => low ≤ high
  | e :: es => low ≤ e.span.start ∧ e.span.start ≤ e.span.stop ∧ Chain e.span.stop high es

namespace Chain

variable {low high : Nat} {es : List Edit}

theorem le (h : Chain low high es) : low ≤ high := by
  induction es generalizing low with
  | nil => exact h
  | cons e es ih =>
      obtain ⟨hstart, hspan, hrest⟩ := h
      have hstop := ih hrest
      omega

theorem mono {low' high' : Nat} (h : Chain low high es) (hlow : low' ≤ low)
    (hhigh : high ≤ high') : Chain low' high' es := by
  induction es generalizing low low' with
  | nil => exact Nat.le_trans hlow (Nat.le_trans h hhigh)
  | cons e es ih =>
      obtain ⟨hstart, hspan, hrest⟩ := h
      exact ⟨Nat.le_trans hlow hstart, hspan, ih hrest (Nat.le_refl _)⟩

theorem append {middle : Nat} {ds : List Edit} (h : Chain low middle es)
    (hnext : Chain middle high ds) : Chain low high (es ++ ds) := by
  induction es generalizing low with
  | nil => exact hnext.mono h (Nat.le_refl _)
  | cons e es ih =>
      obtain ⟨hstart, hspan, hrest⟩ := h
      exact ⟨hstart, hspan, ih hrest⟩

/-- Every edit of a chain stands between its two ends. -/
theorem within (h : Chain low high es) {e : Edit} (he : e ∈ es) :
    low ≤ e.span.start ∧ e.span.start ≤ e.span.stop ∧ e.span.stop ≤ high := by
  induction es generalizing low with
  | nil => simp at he
  | cons d ds ih =>
      obtain ⟨hstart, hspan, hrest⟩ := h
      rcases List.mem_cons.mp he with rfl | he
      · exact ⟨hstart, hspan, hrest.le⟩
      · obtain ⟨hlow, hself, hhigh⟩ := ih hrest he
        exact ⟨by omega, hself, hhigh⟩

theorem pairwise (h : Chain low high es) :
    es.Pairwise fun d e => d.span.start ≤ e.span.start := by
  induction es generalizing low with
  | nil => exact List.Pairwise.nil
  | cons e es ih =>
      obtain ⟨hstart, hspan, hrest⟩ := h
      refine List.Pairwise.cons ?_ (ih hrest)
      intro d hd
      have hd := hrest.within hd
      omega

theorem filter (h : Chain low high es) (p : Edit → Bool) : Chain low high (es.filter p) := by
  induction es generalizing low with
  | nil => exact h
  | cons e es ih =>
      obtain ⟨hstart, hspan, hrest⟩ := h
      by_cases hp : p e = true
      · simpa [hp] using ⟨hstart, hspan, ih hrest⟩
      · simpa [hp] using (ih hrest).mono (Nat.le_trans hstart hspan) (Nat.le_refl _)

end Chain

/-! ## Sorting -/

theorem insertByStart_append {e : Edit} {front back : List Edit}
    (hfront : ∀ d ∈ front, d.span.start ≤ e.span.start)
    (hback : ∀ d ∈ back, e.span.start < d.span.start) :
    insertByStart e (front ++ back) = front ++ e :: back := by
  induction front with
  | nil =>
      cases back with
      | nil => rfl
      | cons d ds =>
          have hd : ¬d.span.start ≤ e.span.start := Nat.not_le_of_lt (hback d (by simp))
          simp [insertByStart, hd]
  | cons d front ih =>
      have hd : d.span.start ≤ e.span.start := hfront d (by simp)
      have hrest := ih fun c hc => hfront c (by simp [hc])
      simp [insertByStart, hd, hrest]

/-- Sorted edits are put between those that start no later and those that start
later. -/
theorem foldl_insertByStart {es : List Edit} (front back : List Edit)
    (hsorted : es.Pairwise fun d e => d.span.start ≤ e.span.start)
    (hfront : ∀ d ∈ front, ∀ e ∈ es, d.span.start ≤ e.span.start)
    (hback : ∀ d ∈ back, ∀ e ∈ es, e.span.start < d.span.start) :
    es.foldl (fun sorted e => insertByStart e sorted) (front ++ back) = front ++ es ++ back := by
  induction es generalizing front with
  | nil => simp
  | cons e es ih =>
      obtain ⟨hfirst, hrest⟩ := List.pairwise_cons.mp hsorted
      have hinsert : insertByStart e (front ++ back) = (front ++ [e]) ++ back := by
        rw [insertByStart_append (fun d hd => hfront d hd e (by simp))
          fun d hd => hback d hd e (by simp)]
        simp
      rw [List.foldl_cons, hinsert, ih (front ++ [e]) hrest]
      · simp
      · intro d hd c hc
        rcases List.mem_append.mp hd with hd | hd
        · exact hfront d hd c (by simp [hc])
        · rw [List.mem_singleton.mp hd]
          exact hfirst c hc
      · intro d hd c hc
        exact hback d hd c (by simp [hc])

theorem sortByStart_of_pairwise {es : List Edit}
    (hsorted : es.Pairwise fun d e => d.span.start ≤ e.span.start) : sortByStart es = es := by
  have hfold := foldl_insertByStart [] [] hsorted (by simp) (by simp)
  simpa [sortByStart] using hfold

theorem sortByStart_append (es ds : List Edit) :
    sortByStart (es ++ ds) =
      ds.foldl (fun sorted e => insertByStart e sorted) (sortByStart es) := by
  simp [sortByStart]

/-- Sorted edits that all start before other sorted edits come first, although
they were given second. -/
theorem sortByStart_append_of_lt {es ds : List Edit}
    (hes : es.Pairwise fun d e => d.span.start ≤ e.span.start)
    (hds : ds.Pairwise fun d e => d.span.start ≤ e.span.start)
    (hlt : ∀ e ∈ es, ∀ d ∈ ds, d.span.start < e.span.start) :
    sortByStart (es ++ ds) = ds ++ es := by
  have hfold := foldl_insertByStart [] es hds (by simp) hlt
  simpa [sortByStart_append, sortByStart_of_pairwise hes] using hfold

theorem mem_insertByStart {d e : Edit} {es : List Edit} :
    d ∈ insertByStart e es ↔ d = e ∨ d ∈ es := by
  induction es with
  | nil => simp [insertByStart]
  | cons c es ih =>
      simp only [insertByStart]
      split
      · rw [List.mem_cons, ih, List.mem_cons]
        exact or_left_comm
      · simp

theorem mem_sortByStart {d : Edit} {es : List Edit} : d ∈ sortByStart es ↔ d ∈ es := by
  have hfold : ∀ sorted : List Edit,
      d ∈ es.foldl (fun sorted e => insertByStart e sorted) sorted ↔ d ∈ es ∨ d ∈ sorted := by
    induction es with
    | nil => simp
    | cons e es ih =>
        intro sorted
        rw [List.foldl_cons, ih, mem_insertByStart, List.mem_cons, or_assoc]
        exact or_left_comm
  simpa [sortByStart] using hfold []

/-! ## Fitting -/

/-- The edits cut no character of a text. -/
def OnBoundaries (t : Text) (es : List Edit) : Prop :=
  ∀ e ∈ es, t.isBoundary e.span.start = true ∧ t.isBoundary e.span.stop = true

theorem fitsSorted_of_chain {t : Text} {low high : Nat} {es : List Edit}
    (hchain : Chain low high es) (hlow : t.isBoundary low = true) (hcut : OnBoundaries t es) :
    fitsSorted t low es = true := by
  induction es generalizing low with
  | nil => exact hlow
  | cons e es ih =>
      obtain ⟨hstart, hspan, hrest⟩ := hchain
      obtain ⟨hcutStart, hcutStop⟩ := hcut e (by simp)
      have hfits := ih hrest hcutStop fun d hd => hcut d (by simp [hd])
      simp [fitsSorted, hstart, hlow, hcutStart, hfits]

/-- An edit in sorted edits that fit starts no earlier than the one before it
stops. -/
theorem le_of_fitsSorted {t : Text} {cursor : Nat} {front back : List Edit} {e d : Edit}
    (h : fitsSorted t cursor (front ++ e :: d :: back) = true) :
    e.span.stop ≤ d.span.start := by
  induction front generalizing cursor with
  | nil =>
      simp only [List.nil_append, fitsSorted, Bool.and_eq_true, decide_eq_true_eq] at h
      exact h.2.1.1.1
  | cons c front ih =>
      simp only [List.cons_append, fitsSorted, Bool.and_eq_true] at h
      exact ih h.2

theorem isBoundary_zero (t : Text) : t.isBoundary 0 = true := by
  simp [Text.isBoundary]

/-- The edits can be applied to a text at once, and every buffer with that text
accepts them. -/
def Applies (t : Text) (es : List Edit) : Prop :=
  (applyAll? es t).isSome = true ∧ ∀ b : Buffer, b.text = t → b.accepts es = true

/-- The edits cannot be applied to a text at once, and no buffer with that text
accepts them. -/
def Refused (t : Text) (es : List Edit) : Prop :=
  ¬(applyAll? es t).isSome = true ∧ ∀ b : Buffer, b.text = t → ¬b.accepts es = true

/-- A buffer accepts edits that cut no character when those that change
something fit. -/
theorem accepts_of_fitsSorted {b : Buffer} {es : List Edit}
    (hspan : ∀ e ∈ es, e.span.start ≤ e.span.stop) (hcut : OnBoundaries b.text es)
    (hfits : fitsSorted b.text 0 (sortByStart (es.filter (changes b.text))) = true) :
    b.accepts es = true := by
  have hspans : ∀ e ∈ es, (decide (e.span.start ≤ e.span.stop) &&
      b.text.isBoundary e.span.start && b.text.isBoundary e.span.stop) = true := by
    intro e he
    obtain ⟨hstart, hstop⟩ := hcut e he
    simp [hspan e he, hstart, hstop]
  rw [Buffer.accepts, Bool.and_eq_true, List.all_eq_true]
  exact ⟨hspans, hfits⟩

/-- Edits that form a chain once they are sorted can be applied at once and are
accepted by a buffer, which drops some of them first. -/
theorem applies_of_chain {t : Text} {low high : Nat} {es sorted : List Edit}
    (hchain : Chain low high sorted) (hcut : OnBoundaries t es)
    (hsort : ∀ p : Edit → Bool, sortByStart (es.filter p) = sorted.filter p) :
    Applies t es := by
  have hkeep : ∀ ds : List Edit, ds.filter (fun _ => true) = ds := by
    intro ds
    exact List.filter_eq_self.mpr fun _ _ => rfl
  have hmem : ∀ e, e ∈ sorted ↔ e ∈ es := by
    intro e
    have hall := hsort fun _ => true
    rw [hkeep, hkeep] at hall
    rw [← hall, mem_sortByStart]
  have hfits : ∀ p : Edit → Bool, fitsSorted t 0 (sortByStart (es.filter p)) = true := by
    intro p
    rw [hsort p]
    apply fitsSorted_of_chain ((hchain.filter p).mono (Nat.zero_le low) (Nat.le_refl high))
      (isBoundary_zero t)
    intro e he
    exact hcut e ((hmem e).mp (List.mem_filter.mp he).1)
  constructor
  · have hall := hfits fun _ => true
    rw [hkeep] at hall
    simp [applyAll?, hall]
  · rintro b rfl
    refine accepts_of_fitsSorted (fun e he => ?_) hcut (hfits (changes b.text))
    exact (hchain.within ((hmem e).mpr he)).2.1

/-- Edits of which those that change something do not fit can neither be applied
nor are accepted by a buffer. -/
theorem refused_of_not_fitsSorted {t : Text} {es : List Edit}
    (hfits : ∀ p : Edit → Bool, (∀ e, changes t e = true → p e = true) →
      fitsSorted t 0 (sortByStart (es.filter p)) = false) :
    Refused t es := by
  constructor
  · have hall := hfits (fun _ => true) fun _ _ => rfl
    rw [List.filter_eq_self.mpr fun _ _ => rfl] at hall
    simp [applyAll?, hall]
  · rintro b rfl haccepts
    rw [Buffer.accepts, Bool.and_eq_true] at haccepts
    have hchanged := hfits (changes b.text) fun _ h => h
    rw [haccepts.2] at hchanged
    cases hchanged

/-! ## What edits leave alone -/

theorem before_append_of_le {s : Text} {n : Nat} (h : s.size ≤ n) (t : Text) :
    Text.before n (s ++ t) = s ++ Text.before (n - s.size) t := by
  induction s generalizing n with
  | nil => simp
  | cons c s ih =>
      have hc := c.utf8Size_pos
      rw [Text.size_cons] at h
      obtain ⟨m, rfl⟩ : ∃ m, n = m + 1 := ⟨n - 1, by omega⟩
      have hrest : m + 1 - (c.utf8Size + Text.size s) = m + 1 - c.utf8Size - Text.size s := by
        omega
      simp [Text.before, ih (n := m + 1 - c.utf8Size) (by omega), hrest]

theorem after_append_of_le {s : Text} {n : Nat} (h : n ≤ s.size) (t : Text) :
    Text.after n (s ++ t) = Text.after n s ++ t := by
  induction s generalizing n with
  | nil =>
      have hn : n = 0 := Nat.le_zero.mp h
      simp [hn]
  | cons c s ih =>
      cases n with
      | zero => simp
      | succ n =>
          rw [Text.size_cons] at h
          simp [Text.after, ih (n := n + 1 - c.utf8Size) (by omega)]

theorem exists_applySorted_append {s back : Text} {cursor : Nat} {es : List Edit}
    (hcursor : cursor ≤ s.size) (hstop : ∀ e ∈ es, e.span.stop ≤ s.size) :
    ∃ changed, applySorted (s ++ back) cursor es = changed ++ back := by
  induction es generalizing cursor with
  | nil => exact ⟨Text.after cursor s, after_append_of_le hcursor back⟩
  | cons e es ih =>
      obtain ⟨changed, hchanged⟩ := ih (hstop e (by simp)) fun d hd => hstop d (by simp [hd])
      refine ⟨Text.slice (s ++ back) cursor e.span.start ++ e.insert ++ changed, ?_⟩
      simp [applySorted, hchanged]

/-- Edits inside the middle part of a text leave its two other parts as they
are. -/
theorem exists_applyAll_eq {front middle : Text} {es : List Edit} (back : Text)
    (hstart : ∀ e ∈ es, front.size ≤ e.span.start)
    (hstop : ∀ e ∈ es, e.span.stop ≤ (front ++ middle).size) :
    ∃ changed, applyAll es (front ++ middle ++ back) = front ++ changed ++ back := by
  have hmem : ∀ e ∈ sortByStart es, e ∈ es := fun e he => mem_sortByStart.mp he
  unfold applyAll
  cases hsorted : sortByStart es with
  | nil => exact ⟨middle, by simp [applySorted]⟩
  | cons e ds =>
      have he : e ∈ es := hmem e (by simp [hsorted])
      have hds : ∀ d ∈ ds, d.span.stop ≤ (front ++ middle).size := by
        intro d hd
        exact hstop d (hmem d (by simp [hsorted, hd]))
      obtain ⟨changed, hchanged⟩ :
          ∃ changed, applySorted (front ++ middle ++ back) e.span.stop ds = changed ++ back :=
        exists_applySorted_append (hstop e he) hds
      have hfront : Text.slice (front ++ middle ++ back) 0 e.span.start =
          front ++ Text.before (e.span.start - front.size) (middle ++ back) := by
        simp [Text.slice, before_append_of_le (hstart e he)]
      refine ⟨Text.before (e.span.start - front.size) (middle ++ back) ++ e.insert ++ changed, ?_⟩
      rw [applySorted, hchanged, hfront]
      simp

end Marginalia.Edit

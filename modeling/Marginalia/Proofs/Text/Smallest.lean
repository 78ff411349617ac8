import Marginalia.Proofs.Text.Splices

/-!
# The smallest edit

Two texts share what stands at their front and, behind it, what stands at their
back.  The edit between them replaces what is left of the one by what is left of
the other, so a buffer that applies it holds the other text.  Every other edit
between them leaves a front and a back that the texts share as well.  Its front
is no longer than the common one.  Its back may be longer than the common one,
but by no more than what its front is shorter: then the shorter rest is the
common back as a whole.
-/

namespace Marginalia

namespace Text

theorem size_le_of_suffix {s t : Text} (h : s <:+ t) : s.size ≤ t.size := by
  obtain ⟨r, rfl⟩ := h
  rw [size_append]
  exact Nat.le_add_left ..

/-- Of two ends of a text the smaller one is an end of the other. -/
theorem suffix_of_size_le {s t whole : Text} (hs : s <:+ whole) (ht : t <:+ whole)
    (h : s.size ≤ t.size) : s <:+ t := by
  rcases List.suffix_or_suffix_of_suffix hs ht with hst | ⟨r, rfl⟩
  · exact hst
  · obtain rfl : r = [] := by
      by_contra hne
      have hpos := size_pos_of_ne_nil hne
      rw [size_append] at h
      omega
    exact List.suffix_rfl

end Text

namespace Edit

variable {old new : Text}

/-! ## What two texts share -/

theorem commonPrefix_prefix (s t : Text) : commonPrefix s t <+: s ∧ commonPrefix s t <+: t := by
  induction s generalizing t with
  | nil => simp [commonPrefix]
  | cons a s ih =>
      cases t with
      | nil => simp [commonPrefix]
      | cons b t =>
          by_cases hab : a = b
          · simpa [commonPrefix, hab, List.cons_prefix_cons] using ih t
          · simp [commonPrefix, hab]

theorem commonSuffix_suffix (s t : Text) : commonSuffix s t <:+ s ∧ commonSuffix s t <:+ t := by
  obtain ⟨hs, ht⟩ := commonPrefix_prefix s.reverse t.reverse
  exact ⟨List.reverse_prefix.mp (by simpa [commonSuffix] using hs),
    List.reverse_prefix.mp (by simpa [commonSuffix] using ht)⟩

theorem prefix_commonPrefix {p s t : Text} (hs : p <+: s) (ht : p <+: t) :
    p <+: commonPrefix s t := by
  induction p generalizing s t with
  | nil => exact List.nil_prefix
  | cons c p ih =>
      obtain ⟨s, rfl⟩ := hs
      obtain ⟨t, rfl⟩ := ht
      simpa [commonPrefix] using ih (List.prefix_append p s) (List.prefix_append p t)

theorem suffix_commonSuffix {p s t : Text} (hs : p <:+ s) (ht : p <:+ t) :
    p <:+ commonSuffix s t := by
  have hreverse := prefix_commonPrefix (List.reverse_prefix.mpr hs) (List.reverse_prefix.mpr ht)
  exact List.reverse_prefix.mp (by simpa [commonSuffix] using hreverse)

/-- Two texts are cut into what they share at the front, what they share at the
back behind it, and what stands between; the edit replaces the one middle part
by the other. -/
theorem exists_between?_eq_some (h : old ≠ new) :
    ∃ front gone made back, old = front ++ gone ++ back ∧ new = front ++ made ++ back ∧
      commonPrefix old new = front ∧ commonSuffix (gone ++ back) (made ++ back) = back ∧
      between? old new = some ⟨⟨front.size, (front ++ gone).size⟩, made⟩ := by
  rw [between?, if_neg h]
  obtain ⟨⟨oldRest, hold⟩, ⟨newRest, hnew⟩⟩ := commonPrefix_prefix old new
  generalize hfront : commonPrefix old new = front at hold hnew ⊢
  subst hold hnew
  simp only [List.drop_left]
  obtain ⟨⟨gone, hgone⟩, ⟨made, hmade⟩⟩ := commonSuffix_suffix oldRest newRest
  generalize hback : commonSuffix oldRest newRest = back at hgone hmade ⊢
  subst hgone hmade
  refine ⟨front, gone, made, back, by simp, by simp, rfl, hback, ?_⟩
  simp only [Text.size_append, List.length_append, Nat.add_sub_cancel, List.take_left,
    ← Nat.add_assoc]

theorem between?_eq_none_iff : between? old new = none ↔ old = new := by
  refine ⟨fun hnone => ?_, fun hsame => if_pos hsame⟩
  by_contra hne
  simp [between?, hne] at hnone

/-! ## Edits that turn a text into another one -/

/-- The edit cuts no character of `old`, and turns it into `new`. -/
structure Turns (old new : Text) (e : Edit) : Prop where
  start_le_stop : e.span.start ≤ e.span.stop
  isBoundary_start : old.isBoundary e.span.start = true
  isBoundary_stop : old.isBoundary e.span.stop = true
  apply_eq : e.apply old = new

/-- What an edit that turns a text into another one leaves of it stands in both
texts. -/
theorem Turns.exists_eq {e : Edit} (h : e.Turns old new) :
    ∃ front gone back, old = front ++ gone ++ back ∧ new = front ++ e.insert ++ back ∧
      front.size = e.span.start ∧ gone.size = e.span.size := by
  refine ⟨Text.before e.span.start old, Text.slice old e.span.start e.span.stop,
    Text.after e.span.stop old, ?_, h.apply_eq.symm, Text.size_before h.isBoundary_start,
    Text.size_slice h.isBoundary_start h.isBoundary_stop h.start_le_stop⟩
  rw [← Text.before_eq_append_slice h.isBoundary_start h.start_le_stop,
    Text.before_append_after]

/-- An edit between two texts that share a front and a back. -/
theorem turns_append (front gone made back : Text) :
    Turns (front ++ gone ++ back) (front ++ made ++ back)
      ⟨⟨front.size, (front ++ gone).size⟩, made⟩ := by
  have hbefore := Text.before_size_append front (gone ++ back)
  have hstart := Text.isBoundary_size_append front (gone ++ back)
  rw [← List.append_assoc] at hbefore hstart
  refine ⟨?_, hstart, Text.isBoundary_size_append (front ++ gone) back, ?_⟩
  · rw [Text.size_append]
    exact Nat.le_add_right ..
  · rw [apply, hbefore, Text.after_size_append]

/-- The edit turns `old` into `new` by a part of `new`, and no other edit that
turns `old` into `new` removes and inserts fewer bytes in all. -/
structure Smallest (old new : Text) (e : Edit) : Prop where
  turns : e.Turns old new
  insert_eq : ∃ stop, new.isBoundary e.span.start = true ∧ new.isBoundary stop = true ∧
    e.insert = Text.slice new e.span.start stop
  least (d : Edit) (hd : d.Turns old new) :
    e.span.size + e.insert.size ≤ d.span.size + d.insert.size

/-! ## No edit is smaller -/

/-- A back that is larger than the smaller of two rests covers it, so the other
rest ends with it. -/
theorem suffix_of_size_lt {between oldRest newRest gone made back : Text}
    (hold : between ++ oldRest = gone ++ back) (hnew : between ++ newRest = made ++ back)
    (hsmaller : oldRest.size ≤ newRest.size) (hlarger : oldRest.size < back.size) :
    oldRest <:+ newRest := by
  have hcovered : oldRest <:+ back :=
    Text.suffix_of_size_le (List.suffix_append between oldRest)
      (hold ▸ List.suffix_append gone back) (Nat.le_of_lt hlarger)
  exact Text.suffix_of_size_le (hcovered.trans (hnew ▸ List.suffix_append made back))
    (List.suffix_append between newRest) hsmaller

/-- What any two texts share in front and at the back is no more than what they
share in front at most and behind it. -/
theorem size_add_size_le {front oldRest newRest front' gone made back : Text}
    (hold : front ++ oldRest = front' ++ gone ++ back)
    (hnew : front ++ newRest = front' ++ made ++ back)
    (hfront : commonPrefix (front ++ oldRest) (front ++ newRest) = front) :
    front'.size + back.size ≤ front.size + (commonSuffix oldRest newRest).size := by
  obtain ⟨between, rfl⟩ : front' <+: front := by
    rw [← hfront, hold, hnew, List.append_assoc, List.append_assoc]
    exact prefix_commonPrefix (List.prefix_append ..) (List.prefix_append ..)
  simp only [List.append_assoc, List.append_cancel_left_eq] at hold hnew
  have hsizeOld := congrArg Text.size hold
  have hsizeNew := congrArg Text.size hnew
  simp only [Text.size_append] at hsizeOld hsizeNew ⊢
  by_cases hfits : back.size ≤ oldRest.size ∧ back.size ≤ newRest.size
  · have hshared : back <:+ commonSuffix oldRest newRest :=
      suffix_commonSuffix
        (Text.suffix_of_size_le (hold ▸ List.suffix_append gone back)
          (List.suffix_append between oldRest) hfits.1)
        (Text.suffix_of_size_le (hnew ▸ List.suffix_append made back)
          (List.suffix_append between newRest) hfits.2)
    have hsize := Text.size_le_of_suffix hshared
    omega
  · rcases Nat.le_total oldRest.size newRest.size with hsmaller | hsmaller
    · have hwhole := suffix_of_size_lt hold hnew hsmaller (by omega)
      have hsize := Text.size_le_of_suffix (suffix_commonSuffix List.suffix_rfl hwhole)
      omega
    · have hwhole := suffix_of_size_lt hnew hold hsmaller (by omega)
      have hsize := Text.size_le_of_suffix (suffix_commonSuffix hwhole List.suffix_rfl)
      omega

theorem exists_smallest_of_ne (h : old ≠ new) :
    ∃ e, between? old new = some e ∧ e.Smallest old new := by
  obtain ⟨front, gone, made, back, rfl, rfl, hfront, hback, hbetween⟩ :=
    exists_between?_eq_some h
  refine ⟨_, hbetween, turns_append front gone made back, ?_, fun d hd => ?_⟩
  · refine ⟨front.size + made.size, ?_, ?_, (Text.slice_middle front made back).symm⟩
    · rw [List.append_assoc]
      exact Text.isBoundary_size_append front (made ++ back)
    · rw [← Text.size_append]
      exact Text.isBoundary_size_append (front ++ made) back
  · obtain ⟨front', gone', back', hold, hnew, -, hgone⟩ := hd.exists_eq
    have hshared := size_add_size_le ((List.append_assoc ..).symm.trans hold)
      ((List.append_assoc ..).symm.trans hnew) (by simpa using hfront)
    have hsizeOld := congrArg Text.size hold
    have hsizeNew := congrArg Text.size hnew
    rw [hback] at hshared
    simp only [Text.size_append, Span.size] at hsizeOld hsizeNew hgone ⊢
    omega

end Edit

namespace Buffer

/-- A buffer accepts the edit between its text and another one, and then holds
the other text. -/
theorem accepts_between? (b : Buffer) (t : Text) :
    b.accepts (Edit.between? b.text t).toList = true ∧
      (b.apply (Edit.between? b.text t).toList).2.text = t := by
  by_cases hsame : b.text = t
  · rw [Edit.between?_eq_none_iff.mpr hsame]
    refine ⟨?_, ?_⟩
    · simp [accepts, Edit.sortByStart, Edit.fitsSorted, Edit.isBoundary_zero]
    · simp [apply, Edit.sortByStart, hsame]
  · obtain ⟨e, hbetween, he⟩ := Edit.exists_smallest_of_ne hsame
    have hturns := he.turns
    have hapart : Edit.Apart b.text [e] := by
      refine ⟨List.forall_mem_singleton.mpr hturns.start_le_stop, ?_, List.isChain_singleton e⟩
      exact List.forall_mem_singleton.mpr ⟨hturns.isBoundary_start, hturns.isBoundary_stop⟩
    have hsplices := splices_of_apart hapart
    rw [hbetween, Option.toList_some]
    refine ⟨hsplices.accepts, ?_⟩
    rw [hsplices.text_eq, ← hturns.apply_eq, Edit.applyAll]
    simp only [Edit.sortByStart, List.foldl_cons, List.foldl_nil, Edit.insertByStart,
      Edit.applySorted, Edit.apply, Text.slice, Text.after_zero, Nat.sub_zero]

theorem text_apply_between? (b : Buffer) (t : Text) :
    (b.apply (Edit.between? b.text t).toList).2.text = t :=
  (b.accepts_between? t).2

end Buffer

end Marginalia

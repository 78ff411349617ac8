import Marginalia.Text.Basic
import Mathlib.Data.List.DropRight

/-!
# Trimmed texts

A text is bare when no white space stands at either end.  Trimming makes a text
bare and leaves a bare text as it is; it only removes characters, at the end the
white space there.
-/

namespace Marginalia.Text

open CharClass

/-! ## The longest front with a property -/

section Front

variable {p : Char → Bool} {front back : Text}

theorem takeWhile_append_of_head? (hfront : ∀ c ∈ front, p c = true)
    (hback : ∀ c ∈ back.head?, p c = false) : (front ++ back).takeWhile p = front := by
  rw [List.takeWhile_append_of_pos hfront]
  cases back with
  | nil => simp
  | cons c back => simp [hback c rfl]

theorem dropWhile_append_of_head? (hfront : ∀ c ∈ front, p c = true)
    (hback : ∀ c ∈ back.head?, p c = false) : (front ++ back).dropWhile p = back := by
  rw [List.dropWhile_append_of_pos hfront]
  cases back with
  | nil => rfl
  | cons c back => simp [hback c rfl]

end Front

/-! ## Bare texts -/

/-- No white space stands at the start or at the end. -/
def Bare (t : Text) : Prop :=
  (∀ c ∈ t.head?, isWhite c = false) ∧ ∀ c ∈ t.getLast?, isWhite c = false

theorem trimStart_of_head? {t : Text} (h : ∀ c ∈ t.head?, isWhite c = false) :
    trimStart t = t := by
  cases t with
  | nil => rfl
  | cons c t =>
      have hc : isWhite c = false := h c rfl
      simp [trimStart, hc]

theorem head?_trimStart (t : Text) : ∀ c ∈ (trimStart t).head?, isWhite c = false := by
  induction t with
  | nil => simp [trimStart]
  | cons c t ih =>
      by_cases hc : isWhite c = true
      · simpa [trimStart, hc] using ih
      · intro d hd
        obtain rfl : c = d := by simpa [trimStart, hc] using hd
        simpa using hc

theorem reverse_trimEnd (t : Text) : (trimEnd t).reverse = trimStart t.reverse := by
  simp [trimEnd, dropEndWhile, trimStart]

theorem trimEnd_of_getLast? {t : Text} (h : ∀ c ∈ t.getLast?, isWhite c = false) :
    trimEnd t = t := by
  apply List.reverse_injective
  rw [reverse_trimEnd]
  apply trimStart_of_head?
  rwa [List.head?_reverse]

theorem getLast?_trimEnd (t : Text) : ∀ c ∈ (trimEnd t).getLast?, isWhite c = false := by
  rw [← List.head?_reverse, reverse_trimEnd]
  exact head?_trimStart t.reverse

theorem trimEnd_trimEnd (t : Text) : trimEnd (trimEnd t) = trimEnd t :=
  trimEnd_of_getLast? (getLast?_trimEnd t)

theorem trimEnd_append (s t : Text) :
    trimEnd (s ++ t) = if (trimEnd t).isEmpty then trimEnd s else s ++ trimEnd t := by
  have hdrop : (t.reverse ++ s.reverse).dropWhile isWhite =
      if (t.reverse.dropWhile isWhite).isEmpty then s.reverse.dropWhile isWhite
      else t.reverse.dropWhile isWhite ++ s.reverse := List.dropWhile_append
  by_cases hempty : (t.reverse.dropWhile isWhite).isEmpty = true
  · simp [trimEnd, dropEndWhile, hdrop, hempty]
  · simp [trimEnd, dropEndWhile, hdrop, hempty]

theorem trimEnd_cons (c : Char) (t : Text) :
    trimEnd (c :: t) = if (trimEnd t).isEmpty then trimEnd [c] else c :: trimEnd t :=
  trimEnd_append [c] t

theorem trimEnd_singleton {c : Char} (hc : isWhite c = false) : trimEnd [c] = [c] := by
  simp [trimEnd, dropEndWhile, hc]

theorem trimEnd_cons_of_not_white {c : Char} (hc : isWhite c = false) (t : Text) :
    trimEnd (c :: t) = c :: trimEnd t := by
  rw [trimEnd_cons, trimEnd_singleton hc]
  by_cases hempty : trimEnd t = []
  · simp [hempty]
  · simp [hempty]

theorem trimStart_trimEnd (t : Text) : trimStart (trimEnd t) = trim t := by
  induction t with
  | nil => rfl
  | cons c t ih =>
      by_cases hc : isWhite c = true
      · have hrest : trim (c :: t) = trim t := by simp [trim, trimStart, hc]
        rw [hrest, ← ih, trimEnd_cons]
        by_cases hempty : trimEnd t = []
        · have hsingle : trimEnd [c] = [] := by simp [trimEnd, dropEndWhile, hc]
          simp [hempty, hsingle]
        · simp [hempty, trimStart, hc]
      · have hc : isWhite c = false := by simpa using hc
        simp [trim, trimStart, trimEnd_cons_of_not_white hc, hc]

theorem bare_trim (t : Text) : Bare (trim t) := by
  refine ⟨?_, getLast?_trimEnd (trimStart t)⟩
  have hhead := head?_trimStart t
  rw [trim]
  cases htrim : trimStart t with
  | nil => simp [trimEnd, dropEndWhile]
  | cons c s =>
      have hc : isWhite c = false := hhead c (by simp [htrim])
      simp [trimEnd_cons_of_not_white hc, hc]

theorem trim_of_bare {t : Text} (h : Bare t) : trim t = t := by
  rw [trim, trimStart_of_head? h.1, trimEnd_of_getLast? h.2]

theorem trim_trim (t : Text) : trim (trim t) = trim t :=
  trim_of_bare (bare_trim t)

theorem trim_trimEnd (t : Text) : trim (trimEnd t) = trim t := by
  rw [← trimStart_trimEnd, trimEnd_trimEnd, trimStart_trimEnd]

theorem trim_cons_of_white {c : Char} (hc : isWhite c = true) (t : Text) :
    trim (c :: t) = trim t := by
  simp [trim, trimStart, hc]

theorem trim_append_of_white {gap : Text} (hgap : ∀ c ∈ gap, isWhite c = true) (t : Text) :
    trim (gap ++ t) = trim t := by
  induction gap with
  | nil => rfl
  | cons c gap ih =>
      rw [List.cons_append, trim_cons_of_white (hgap c (by simp))]
      exact ih fun d hd => hgap d (by simp [hd])

theorem trimEnd_concat_of_white {c : Char} (hc : isWhite c = true) (t : Text) :
    trimEnd (t ++ [c]) = trimEnd t := by
  simp [trimEnd, dropEndWhile, hc]

theorem trimEnd_append_of_white {gap : Text} (hgap : ∀ c ∈ gap, isWhite c = true) (t : Text) :
    trimEnd (t ++ gap) = trimEnd t := by
  induction gap using List.reverseRecOn with
  | nil => rw [List.append_nil]
  | append_singleton gap c ih =>
      rw [← List.append_assoc, trimEnd_concat_of_white (hgap c (by simp))]
      exact ih fun d hd => hgap d (by simp [hd])

/-- A text that ends without white space keeps its last character. -/
theorem getLast?_trim {t : Text} {c : Char} (ht : t.getLast? = some c) (hc : isWhite c = false) :
    (trim t).getLast? = some c := by
  obtain ⟨s, rfl⟩ := List.getLast?_eq_some_iff.mp ht
  have hend : trimEnd (s ++ [c]) = s ++ [c] := by
    apply trimEnd_of_getLast?
    simp [hc]
  rw [← trimStart_trimEnd, hend, trimStart, List.dropWhile_append]
  by_cases hempty : (s.dropWhile isWhite).isEmpty = true
  · simp [hempty, hc]
  · simp [hempty]

theorem mem_of_mem_trimEnd {t : Text} {c : Char} (h : c ∈ trimEnd t) : c ∈ t :=
  (List.rdropWhile_prefix isWhite t).subset h

theorem mem_of_mem_trim {t : Text} {c : Char} (h : c ∈ trim t) : c ∈ t :=
  (List.dropWhile_sublist isWhite).subset (mem_of_mem_trimEnd h)

theorem trimEnd_eq_nil_iff {t : Text} : trimEnd t = [] ↔ isBlank t = true := by
  rw [isBlank, List.all_eq_true]
  exact List.rdropWhile_eq_nil_iff

/-! ## The white space that is trimmed -/

def endWhite (t : Text) : Text :=
  t.rtakeWhile isWhite

theorem trimEnd_append_endWhite (t : Text) : trimEnd t ++ endWhite t = t :=
  List.rdropWhile_append_rtakeWhile

theorem isWhite_of_mem_endWhite {t : Text} {c : Char} (hc : c ∈ endWhite t) : isWhite c = true :=
  List.mem_rtakeWhile_imp hc

theorem endWhite_eq_nil_iff {t : Text} :
    endWhite t = [] ↔ ∀ c ∈ t.getLast?, isWhite c = false := by
  rw [endWhite, List.rtakeWhile_eq_nil_iff]
  constructor
  · rintro h c hc
    obtain ⟨hne, rfl⟩ := List.mem_getLast?_eq_getLast hc
    simpa using h hne
  · intro h hne
    simpa using h _ (List.getLast?_eq_getLast_of_ne_nil hne)

theorem drop_length_trimEnd (t tail : Text) :
    (t ++ tail).drop (trimEnd t).length = endWhite t ++ tail := by
  have hsplit : t ++ tail = trimEnd t ++ (endWhite t ++ tail) := by
    rw [← List.append_assoc, trimEnd_append_endWhite]
  rw [hsplit, List.drop_left]

theorem endWhite_append_cons {c : Char} (hc : isWhite c = false) (s t : Text) :
    endWhite (s ++ c :: t) = endWhite t := by
  have htake : ∀ q r : Text, (q ++ c :: r).takeWhile isWhite = q.takeWhile isWhite := by
    intro q r
    induction q with
    | nil => simp [hc]
    | cons d q ih => simp [List.takeWhile_cons, ih]
  simp [endWhite, List.rtakeWhile, htake]

theorem head?_trimEnd {t : Text} (h : isBlank t = false) : (trimEnd t).head? = t.head? := by
  have hsplit := trimEnd_append_endWhite t
  cases htrim : trimEnd t with
  | nil =>
      rw [trimEnd_eq_nil_iff.mp htrim] at h
      cases h
  | cons c r =>
      rw [htrim] at hsplit
      rw [← hsplit]
      rfl

end Marginalia.Text

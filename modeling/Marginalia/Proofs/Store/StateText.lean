import Marginalia.Proofs.Store.Times
import Marginalia.Proofs.Text.Lines
import Marginalia.Proofs.Toml.Document
import Marginalia.Store.SavedState

/-!
# Times of saving read back

The times of saving are written as a TOML document with one line for each time.
Each line is read as one entry, so the document reads back as the same times.
-/

namespace Marginalia

namespace SavedState

open Toml

/-- The times of saving are on the calendar and on the clock. -/
def IsValid (s : SavedState) : Prop :=
  ∀ kind, ∀ m ∈ s.savedAt kind, m.isValid = true

theorem isBareKey_key (kind : DocumentKind) : Reader.IsBareKey (key kind) := by
  cases kind <;> decide

theorem lines?_line {kind : DocumentKind} {s : SavedState} {m : Moment}
    (h : s.savedAt kind = some m) {es : Entries} (hes : es.get? (key kind) = none) (limit : Nat)
    (rest : Text) :
    Reader.lines? (limit + 1) ⟨[], es⟩ (s.line kind ++ rest) =
      Reader.lines? limit ⟨[], es ++ [(key kind, .str m.toText)]⟩ rest := by
  rw [line, h]
  exact Reader.lines?_entry (isBareKey_key kind) (Reader.writtenAs_write m.toText)
    (Table.insertBelow?_top hes _) limit rest

def entries (s : SavedState) : Entries :=
  [DocumentKind.config, .keywords].filterMap fun kind =>
    (s.savedAt kind).map fun m => (key kind, .str m.toText)

theorem head?_line {kind : DocumentKind} {s : SavedState} {c : Char}
    (hc : c ∈ (s.line kind).head?) : c ∈ key kind := by
  unfold line at hc
  split at hc
  · cases hc
  · obtain ⟨d, r, hcons⟩ := List.exists_cons_of_ne_nil (isBareKey_key kind).1
    rw [hcons] at hc ⊢
    obtain rfl : d = c := by simpa using hc
    exact List.mem_cons_self

/-- A document of times starts without a byte order mark. -/
theorem head?_toText (s : SavedState) : s.toText.head? ≠ some '\uFEFF' := by
  intro hhead
  rw [toText, List.head?_append, Option.or_eq_some_iff] at hhead
  rcases hhead with hline | ⟨-, hline⟩
  · exact absurd (head?_line hline) (by decide)
  · exact absurd (head?_line hline) (by decide)

theorem two_le_length_line {kind : DocumentKind} {s : SavedState} {m : Moment}
    (h : s.savedAt kind = some m) : 2 ≤ (s.line kind).length := by
  simp only [line, h, List.length_append, List.length_cons, List.length_nil]
  omega

/-- Three steps are enough for the lines of two times and the end. -/
theorem lines?_toText (s : SavedState) (limit : Nat) :
    Reader.lines? (limit + 3) ⟨[], []⟩ s.toText = some s.entries := by
  obtain ⟨_ | m, _ | n⟩ := s
  · rfl
  · have htext : toText ⟨none, some n⟩ = line ⟨none, some n⟩ .keywords ++ [] :=
      (List.append_nil _).symm
    rw [htext, lines?_line rfl rfl]
    rfl
  · have htext : toText ⟨some m, none⟩ = line ⟨some m, none⟩ .config ++ [] := rfl
    rw [htext, lines?_line rfl rfl]
    rfl
  · have htext : toText ⟨some m, some n⟩ =
        line ⟨some m, some n⟩ .config ++ (line ⟨some m, some n⟩ .keywords ++ []) := by
      rw [List.append_nil]
      rfl
    rw [htext, lines?_line rfl rfl, lines?_line rfl rfl]
    rfl

theorem ofText?_entries (s : SavedState) : Entries.ofText? s.toText = some s.entries := by
  by_cases hempty : s = empty
  · rw [hempty]
    rfl
  · obtain ⟨kind, m, hm⟩ : ∃ kind m, s.savedAt kind = some m := by
      obtain ⟨_ | m, _ | n⟩ := s
      · exact absurd rfl hempty
      · exact ⟨.keywords, n, rfl⟩
      · exact ⟨.config, m, rfl⟩
      · exact ⟨.config, m, rfl⟩
    have hlength : 2 ≤ s.toText.length := by
      have hline := two_le_length_line hm
      rw [toText, List.length_append]
      cases kind <;> omega
    obtain ⟨k, hk⟩ : ∃ k, s.toText.length + 1 = k + 3 := ⟨s.toText.length - 2, by omega⟩
    rw [Entries.ofText?_of_head? (head?_toText s), hk, lines?_toText]

/-- The times of saving are read back from their writing. -/
theorem ofText?_toText {s : SavedState} (h : s.IsValid) : ofText? s.toText = some s := by
  have htime : ∀ kind, time? s.entries kind = some (s.savedAt kind) := by
    intro kind
    have hget : s.entries.get? (key kind) = (s.savedAt kind).map fun m => .str m.toText := by
      obtain ⟨_ | m, _ | n⟩ := s <;> cases kind <;> rfl
    rw [time?, hget]
    cases hsaved : s.savedAt kind with
    | none => rfl
    | some m => simp [Moment.ofText?_toText (h kind m hsaved)]
  simp only [ofText?, ofText?_entries, htime, Option.bind_eq_bind, Option.bind_some]
  rfl

theorem isValid_of_time? {es : Entries} {kind : DocumentKind} {m : Moment}
    (h : time? es kind = some (some m)) : m.isValid = true := by
  unfold time? at h
  split at h
  · cases h
  · next t _ =>
      obtain ⟨m', hm', ⟨⟩⟩ := Option.map_eq_some_iff.mp h
      exact Moment.isValid_of_ofText? hm'
  · cases h

theorem isValid_of_ofText? {t : Text} {s : SavedState} (h : ofText? t = some s) : s.IsValid := by
  obtain ⟨es, -, h⟩ := Option.bind_eq_some_iff.mp h
  obtain ⟨config, hconfig, h⟩ := Option.bind_eq_some_iff.mp h
  obtain ⟨keywords, hkeywords, ⟨⟩⟩ := Option.bind_eq_some_iff.mp h
  rintro kind m hm
  cases kind with
  | config =>
      obtain rfl : config = some m := hm
      exact isValid_of_time? hconfig
  | keywords =>
      obtain rfl : keywords = some m := hm
      exact isValid_of_time? hkeywords

end SavedState

end Marginalia

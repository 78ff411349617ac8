import Marginalia.Proofs.Text.OneLine

/-!
# Texts from their lines

A text is what its lines consist of.  The other way round, contents and
terminators make up a text, and it has just those lines when each can be told
from the next: no content holds a line feed, none before a line feed ends with a
carriage return, and only the last line may be open, with something in it.
-/

namespace Marginalia

namespace Text

/-- The text of lines that are given by their contents and terminators. -/
def ofParts (ps : List (Text × Terminator)) : Text :=
  ps.flatMap fun p => p.1 ++ p.2.toText

variable {ps qs : List (Text × Terminator)}

@[simp] theorem ofParts_nil : ofParts [] = [] := rfl

@[simp] theorem ofParts_cons (p : Text × Terminator) (ps : List (Text × Terminator)) :
    ofParts (p :: ps) = p.1 ++ (p.2.toText ++ ofParts ps) := by
  simp [ofParts]

@[simp] theorem ofParts_append (ps qs : List (Text × Terminator)) :
    ofParts (ps ++ qs) = ofParts ps ++ ofParts qs := by
  simp [ofParts]

@[simp] theorem ofParts_map_parts (ls : List Line) :
    ofParts (ls.map Line.parts) = joinLines ls := by
  rw [ofParts, List.flatMap_map]
  rfl

def Ended (ps : List (Text × Terminator)) : Prop :=
  ∀ p ∈ ps, p.2 ≠ .none

/-- Lines that are told from one another. -/
inductive Laid : List (Text × Terminator) → Prop
  | nil : Laid []
  | last {content : Text} (hne : content ≠ []) (hlf : '\n' ∉ content) : Laid [(content, .none)]
  | cons {content : Text} {terminator : Terminator} {ps : List (Text × Terminator)}
      (hended : terminator ≠ .none) (hlf : '\n' ∉ content)
      (hcr : terminator = .lf → content.getLast? ≠ some '\r') (h : Laid ps) :
      Laid ((content, terminator) :: ps)

theorem pieces_append_toText {content : Text} {terminator : Terminator}
    (hended : terminator ≠ .none) (hlf : '\n' ∉ content) (rest : Text) :
    (content ++ (terminator.toText ++ rest)).pieces =
      (content ++ terminator.toText) :: rest.pieces := by
  cases terminator with
  | none => exact absurd rfl hended
  | lf => exact pieces_append_lf hlf rest
  | crlf =>
      have hcr : '\n' ∉ content ++ ['\r'] := by simpa using hlf
      have hpieces := pieces_append_lf hcr rest
      simpa [Terminator.toText] using hpieces

theorem Laid.map_parts_lines (h : Laid ps) : (ofParts ps).lines.map Line.parts = ps := by
  rw [Text.map_parts_lines]
  induction h with
  | nil => rfl
  | @last content hne hlf =>
      have hsplit : splitTerminator (content ++ Terminator.none.toText) = (content, .none) :=
        splitTerminator_append hlf (by simp)
      rw [Terminator.toText, List.append_nil] at hsplit
      simp [Terminator.toText, pieces_of_not_mem_lf hne hlf, hsplit]
  | cons hended hlf hcr _ ih =>
      rw [ofParts_cons, pieces_append_toText hended hlf, List.map_cons, ih,
        splitTerminator_append hlf hcr]

theorem laid_lines (t : Text) : Laid (t.lines.map Line.parts) := by
  have hlines : ∀ ls : List Line, (∀ l ∈ ls, l ∈ t.lines) →
      (∀ k l, ls[k]? = some l → l.terminator = .none → ls.drop (k + 1) = []) →
      Laid (ls.map Line.parts) := by
    intro ls
    induction ls with
    | nil => exact fun _ _ => .nil
    | cons l ls ih =>
        intro hmem hopen
        have hl := hmem l (List.mem_cons_self ..)
        have hlf := not_mem_content_of_mem_lines hl
        by_cases hnone : l.terminator = .none
        · obtain rfl : ls = [] := hopen 0 l rfl hnone
          have hraw := raw_ne_nil hl
          simp only [Line.raw, hnone, Terminator.toText, List.append_nil] at hraw
          simpa [Line.parts, hnone] using Laid.last hraw hlf
        · exact .cons hnone hlf (getLast?_content_of_lf hl)
            (ih (fun l' hl' => hmem l' (List.mem_cons_of_mem l hl'))
              fun k l' hk => hopen (k + 1) l' hk)
  exact hlines t.lines (fun _ hl => hl) fun k l => drop_lines_of_terminator_eq_none

/-- Lines below others are laid when both are and nothing stands below an open
line. -/
theorem laid_append_iff : Laid (ps ++ qs) ↔ Laid ps ∧ Laid qs ∧ (qs = [] ∨ Ended ps) := by
  induction ps with
  | nil => simp [Laid.nil, Ended]
  | cons p ps ih =>
      have hended : Ended (p :: ps) ↔ p.2 ≠ .none ∧ Ended ps := List.forall_mem_cons
      rw [List.cons_append, hended]
      constructor
      · intro h
        generalize hall : p :: (ps ++ qs) = all at h
        cases h with
        | nil => cases hall
        | last hne hlf =>
            obtain ⟨rfl, hnil⟩ := List.cons.inj hall
            obtain ⟨rfl, rfl⟩ := List.append_eq_nil_iff.mp hnil
            exact ⟨.last hne hlf, .nil, Or.inl rfl⟩
        | cons hterminator hlf hcr h =>
            obtain ⟨rfl, rfl⟩ := List.cons.inj hall
            obtain ⟨hps, hqs, hopen⟩ := ih.mp h
            exact ⟨.cons hterminator hlf hcr hps, hqs, hopen.imp_right fun h => ⟨hterminator, h⟩⟩
      · rintro ⟨hp, hqs, rfl | ⟨hterminator, hps⟩⟩
        · simpa using hp
        · cases hp with
          | last => exact absurd rfl hterminator
          | cons _ hlf hcr h => exact .cons hterminator hlf hcr (ih.mpr ⟨h, hqs, Or.inr hps⟩)

theorem laid_stretch (t : Text) (i j : Nat) :
    Laid (((t.lines.take j).drop i).map Line.parts) := by
  have hall := laid_lines t
  rw [← List.take_append_drop j t.lines, List.map_append] at hall
  have hfront := (laid_append_iff.mp hall).1
  rw [← List.take_append_drop i (t.lines.take j), List.map_append] at hfront
  exact (laid_append_iff.mp hfront).2.1

theorem ended_stretch {t : Text} {j : Nat} (i : Nat) (hj : j < t.lines.length) :
    Ended (((t.lines.take j).drop i).map Line.parts) := by
  have hall := laid_lines t
  rw [← List.take_append_drop j t.lines, List.map_append] at hall
  have hended := (laid_append_iff.mp hall).2.2.resolve_left (by simpa using hj)
  intro p hp
  rw [List.map_drop] at hp
  exact hended p (List.mem_of_mem_drop hp)

end Text

end Marginalia

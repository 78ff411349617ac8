import Marginalia.Proofs.Store.Files

/-!
# Saving in vain

A save writes the document, then reads the times of saving, and writes them with
the new one.  The document stays written when the times cannot be read or
written, so a failed save has done half of its work: the document is loaded with
the text whose save failed, and the times are those of the save before.

`Store.readsSame_save_iff` tells exactly when a save that failed behind its
document left the store as it was.
-/

namespace Marginalia

namespace Store

/-- What can be read from a store: the last saved texts and the times of
saving. -/
structure ReadsSame (s s' : Store) : Prop where
  load : ∀ kind, s'.load kind = s.load kind
  state : s'.state = s.state

variable {s : Store} {kind other : DocumentKind} {t : Text} {at_ : Moment} {e : StoreError}
  {d : Path} {name name' : Text}

/-! ## One file of the directory -/

theorem read_write_of_leadsTo (h : s.files.LeadsTo s.root d) (hname : Path.IsProper name)
    (hname' : Path.IsProper name') (hne : name ≠ name') (t : Text) :
    (s.write [name'] t).2.read [name] = s.read [name] := by
  simp only [read, FileTree.read, root_write, files_write,
    FileTree.find?_writeDeep_of_leadsTo h hname hname' hne]

theorem load_write_of_leadsTo (h : s.files.LeadsTo s.root d) (hname : Path.IsProper name)
    (hne : kind.fileName ≠ name) (t : Text) : (s.write [name] t).2.load kind = s.load kind := by
  rw [load, load, read_write_of_leadsTo h kind.isProper_fileName hname hne]

theorem state_write_of_leadsTo (h : s.files.LeadsTo s.root d) (kind : DocumentKind) (t : Text) :
    (s.write [kind.fileName] t).2.state = s.state := by
  rw [state, state, read_write_of_leadsTo h isProper_stateFile kind.isProper_fileName
    (fileName_ne_stateFile kind).symm]

/-- A document that can be loaded stands in the directory of the store. -/
theorem exists_leadsTo_of_load (h : s.load kind = .ok (some t)) :
    ∃ d, s.files.LeadsTo s.root d := by
  rw [load_eq_ok_some_iff, FileTree.find?_concat_eq_some_iff kind.isProper_fileName] at h
  obtain ⟨d, hd, -⟩ := h
  exact ⟨d, hd⟩

theorem write_of_error (h : s.files.LeadsTo s.root d) (hname : Path.IsProper name)
    (hwrite : (s.write [name] t).1 = .error e) : (s.write [name] t).2 = s := by
  have hfiles : (s.files.writeDeep (s.root ++ [name]) t).2 = s.files := by
    cases houtcome : (s.files.writeDeep (s.root ++ [name]) t).1 with
    | ok _ => simp [write, houtcome, Except.mapError] at hwrite
    | error fault => exact FileTree.writeDeep_of_error h hname houtcome
  simp [write, hfiles]

/-! ## A failed save -/

/-- A save that fails behind its document leaves the store with the document
written. -/
theorem save_of_error (hwrite : (s.write [kind.fileName] t).1 = .ok ())
    (hsave : (s.save kind t at_).1 = .error e) :
    (s.save kind t at_).2 = (s.write [kind.fileName] t).2 := by
  have hloaded := load_of_write hwrite
  rcases hwritten : s.write [kind.fileName] t with ⟨outcome, written⟩
  rw [hwritten] at hwrite hloaded
  subst hwrite
  cases hstate : written.state with
  | error fault => simp only [save, hwritten, hstate]
  | ok state =>
      have hlast : s.save kind t at_ = written.write [stateFile] (state.set kind at_).toText := by
        simp only [save, hwritten, hstate]
      obtain ⟨d, hd⟩ := exists_leadsTo_of_load hloaded
      rw [hlast] at hsave ⊢
      exact write_of_error hd isProper_stateFile hsave

/-- The text whose save failed is loaded all the same. -/
theorem load_save_of_error (hwrite : (s.write [kind.fileName] t).1 = .ok ())
    (hsave : (s.save kind t at_).1 = .error e) :
    (s.save kind t at_).2.load kind = .ok (some t) := by
  rw [save_of_error hwrite hsave]
  exact load_of_write hwrite

/-- In a directory that was there, a failed save leaves the other document and
the times. -/
theorem others_save_of_error (h : s.files.LeadsTo s.root d)
    (hwrite : (s.write [kind.fileName] t).1 = .ok ())
    (hsave : (s.save kind t at_).1 = .error e) :
    (∀ other ≠ kind, (s.save kind t at_).2.load other = s.load other) ∧
      (s.save kind t at_).2.state = s.state := by
  rw [save_of_error hwrite hsave]
  constructor
  · intro other hother
    exact load_write_of_leadsTo h kind.isProper_fileName (DocumentKind.fileName_ne hother) t
  · exact state_write_of_leadsTo h kind t

/-- A save that fails behind its document leaves what can be read as it was
exactly when the text was the last saved one already. -/
theorem readsSame_save_iff (hwrite : (s.write [kind.fileName] t).1 = .ok ())
    (hsave : (s.save kind t at_).1 = .error e) :
    s.ReadsSame (s.save kind t at_).2 ↔ s.load kind = .ok (some t) := by
  have hloaded := load_save_of_error hwrite hsave
  constructor
  · intro hsame
    rw [← hsame.load kind, hloaded]
  · intro hstored
    obtain ⟨d, hd⟩ := exists_leadsTo_of_load hstored
    obtain ⟨hothers, hstate⟩ := others_save_of_error hd hwrite hsave
    refine ⟨fun other => ?_, hstate⟩
    by_cases hother : other = kind
    · rw [hother, hloaded, hstored]
    · exact hothers other hother

/-- A store whose times of saving cannot be read. -/
def withBadState : Store :=
  ⟨"/s".toList, [], ⟨[([], .directory), ([['s']], .directory),
    ([['s'], DocumentKind.keywords.fileName], .file ['k']),
    ([['s'], stateFile], .file ['['])]⟩⟩

theorem readsSame_save_iff_badState :
    (withBadState.write [DocumentKind.keywords.fileName] ['k']).1 = .ok () ∧
    (withBadState.save .keywords ['k'] ⟨⟨2026, 1, 2⟩, 3, 4, 5, 0⟩).1 = .error .badState ∧
    (withBadState.ReadsSame (withBadState.save .keywords ['k'] ⟨⟨2026, 1, 2⟩, 3, 4, 5, 0⟩).2 ↔
      withBadState.load .keywords = .ok (some ['k'])) := by
  have hwrite : (withBadState.write [DocumentKind.keywords.fileName] ['k']).1 = .ok () := by
    decide +kernel
  have hsave : (withBadState.save .keywords ['k'] ⟨⟨2026, 1, 2⟩, 3, 4, 5, 0⟩).1 =
      .error .badState := by decide +kernel
  exact ⟨hwrite, hsave, readsSame_save_iff hwrite hsave⟩

/-- A document that was never saved is loaded after its save has failed. -/
theorem not_readsSame_save_of_badState :
    (withBadState.write [DocumentKind.config.fileName] ['a']).1 = .ok () ∧
    (withBadState.save .config ['a'] ⟨⟨2026, 1, 2⟩, 3, 4, 5, 0⟩).1 = .error .badState ∧
    withBadState.load .config = .ok none ∧
    (withBadState.save .config ['a'] ⟨⟨2026, 1, 2⟩, 3, 4, 5, 0⟩).2.load .config =
      .ok (some ['a']) ∧
    ¬withBadState.ReadsSame (withBadState.save .config ['a'] ⟨⟨2026, 1, 2⟩, 3, 4, 5, 0⟩).2 := by
  have hwrite : (withBadState.write [DocumentKind.config.fileName] ['a']).1 = .ok () := by
    decide +kernel
  have hsave : (withBadState.save .config ['a'] ⟨⟨2026, 1, 2⟩, 3, 4, 5, 0⟩).1 =
      .error .badState := by decide +kernel
  have hnever : withBadState.load .config = .ok none := by decide +kernel
  have hloaded := load_save_of_error hwrite hsave
  refine ⟨hwrite, hsave, hnever, hloaded, fun hsame => ?_⟩
  have hsameLoad := hsame.load .config
  rw [hloaded, hnever] at hsameLoad
  cases hsameLoad

end Store

end Marginalia

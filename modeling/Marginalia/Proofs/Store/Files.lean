import Mathlib.Data.List.Induction
import Marginalia.Store.Basic

/-!
# The files of one directory

The documents and the times of saving stand in one directory, each under its own
name.  Names that lead to the directory lead there as long as no directory is
lost, so writing one of the files finds the directory where reading another one
found it, and leaves that other file alone.
-/

namespace Marginalia

namespace Path

/-- A name that leads down to an entry of a directory, neither staying nor going
up. -/
def IsProper (name : Text) : Prop :=
  name ≠ ['.'] ∧ name ≠ ['.', '.']

theorem step_of_isProper {name : Text} (h : IsProper name) (here : Path) :
    here.step name = here ++ [name] := by
  rw [step, if_neg h.1, if_neg h.2]

theorem dropPoints_concat (names : List Text) (name : Text) :
    dropPoints (names ++ [name]) = if name = ['.'] then dropPoints names else names ++ [name] := by
  by_cases h : name = ['.'] <;> simp [dropPoints, h]

end Path

namespace FileTree

/-- The names lead to the directory `d`. -/
structure LeadsTo (tree : FileTree) (names : List Text) (d : Path) : Prop where
  follow : tree.follow? [] names = some d
  directory : tree.get? d = some .directory

variable {tree : FileTree} {names : List Text} {d p : Path} {name name' t t' : Text}

theorem follow?_append (tree : FileTree) (here : Path) (names names' : List Text) :
    tree.follow? here (names ++ names') =
      (tree.follow? here names).bind fun p => tree.follow? p names' := by
  induction names generalizing here with
  | nil => rfl
  | cons name names ih =>
      rw [List.cons_append, follow?, follow?]
      split
      · exact ih _
      · rfl

theorem follow?_concat_eq_some_iff (hname : Path.IsProper name) :
    tree.follow? [] (names ++ [name]) = some p ↔
      ∃ d, tree.LeadsTo names d ∧ p = d ++ [name] := by
  rw [follow?_append]
  constructor
  · intro h
    obtain ⟨d, hd, hstep⟩ := Option.bind_eq_some_iff.mp h
    rw [follow?, Path.step_of_isProper hname] at hstep
    obtain ⟨hdirectory, hp⟩ := Option.ite_none_right_eq_some.mp hstep
    exact ⟨d, ⟨hd, hdirectory⟩, (Option.some.inj hp).symm⟩
  · rintro ⟨d, hd, rfl⟩
    rw [hd.follow, Option.bind_some, follow?, if_pos hd.directory, Path.step_of_isProper hname]
    rfl

/-- What stands at a proper name stands in the directory before it. -/
theorem find?_concat_eq_some_iff (hname : Path.IsProper name) {e : Entry} :
    tree.find? (names ++ [name]) = some e ↔
      ∃ d, tree.LeadsTo names d ∧ tree.get? (d ++ [name]) = some e := by
  rw [find?, Option.bind_eq_some_iff]
  constructor
  · rintro ⟨p, hp, he⟩
    obtain ⟨d, hd, rfl⟩ := (follow?_concat_eq_some_iff hname).mp hp
    exact ⟨d, hd, he⟩
  · rintro ⟨d, hd, he⟩
    exact ⟨d ++ [name], (follow?_concat_eq_some_iff hname).mpr ⟨d, hd, rfl⟩, he⟩

theorem follow?_dropPoints (h : tree.follow? [] names = some p) :
    tree.follow? [] (Path.dropPoints names) = some p := by
  induction names using List.reverseRecOn with
  | nil => exact h
  | append_singleton names name ih =>
      rw [Path.dropPoints_concat]
      split
      · next hpoint =>
          rw [follow?_append] at h
          obtain ⟨q, hq, hstep⟩ := Option.bind_eq_some_iff.mp h
          rw [follow?, Path.step, if_pos hpoint] at hstep
          obtain ⟨-, hstay⟩ := Option.ite_none_right_eq_some.mp hstep
          obtain rfl : q = p := Option.some.inj hstay
          exact ih hq
      · exact h

theorem parent_concat (hname : Path.IsProper name) :
    parent (names ++ [name]) = Path.dropPoints names := by
  rw [parent, Path.dropPoints_concat, if_neg hname.1, List.dropLast_concat]

theorem LeadsTo.makeDirectories_eq (h : tree.LeadsTo names d) :
    tree.makeDirectories (Path.dropPoints names) = (.ok (), tree) := by
  have hfind : tree.find? (Path.dropPoints names) = some .directory := by
    rw [find?, follow?_dropPoints h.follow]
    exact h.directory
  rw [makeDirectories, if_pos hfind]

theorem makeDirectories_parent (h : tree.LeadsTo names d) (hname : Path.IsProper name) :
    tree.makeDirectories (parent (names ++ [name])) = (.ok (), tree) := by
  rw [parent_concat hname, h.makeDirectories_eq]

/-! ## Putting a file -/

theorem get?_put_file_eq_directory_iff (t : Text) (hp : tree.get? p ≠ some .directory) (q : Path) :
    (tree.put p (.file t)).get? q = some .directory ↔ tree.get? q = some .directory := by
  by_cases hq : q = p
  · subst hq
    simp [get?_put_self, hp]
  · rw [get?_put_of_ne tree _ hq]

/-- Names lead to the same path after a file was put where no directory
stands. -/
theorem follow?_put_file (t : Text) (hp : tree.get? p ≠ some .directory) (here : Path)
    (names : List Text) :
    (tree.put p (.file t)).follow? here names = tree.follow? here names := by
  induction names generalizing here with
  | nil => rfl
  | cons name names ih => simp only [follow?, get?_put_file_eq_directory_iff t hp, ih]

theorem LeadsTo.put_file (h : tree.LeadsTo names d) (t : Text)
    (hp : tree.get? p ≠ some .directory) : (tree.put p (.file t)).LeadsTo names d := by
  constructor
  · rw [follow?_put_file t hp]
    exact h.follow
  · exact (get?_put_file_eq_directory_iff t hp d).mpr h.directory

/-- Writing a file of a directory puts it there, or leaves the tree as it is. -/
theorem write_concat_cases (h : tree.LeadsTo names d) (hname : Path.IsProper name) (t : Text) :
    tree.get? (d ++ [name]) ≠ some .directory ∧
        tree.write (names ++ [name]) t = (.ok (), tree.put (d ++ [name]) (.file t)) ∨
      ∃ fault, tree.write (names ++ [name]) t = (.error fault, tree) := by
  have hfollow : tree.follow? [] (names ++ [name]) = some (d ++ [name]) :=
    (follow?_concat_eq_some_iff hname).mpr ⟨d, h, rfl⟩
  simp only [write, hfollow]
  split
  · exact Or.inr ⟨_, rfl⟩
  · split
    · exact Or.inr ⟨_, rfl⟩
    · next hdirectory => exact Or.inl ⟨hdirectory, rfl⟩

theorem find?_of_write (h : (tree.write names t).1 = .ok ()) :
    (tree.write names t).2.find? names = some (.file t) := by
  cases hp : tree.follow? [] names with
  | none => simp [write, hp] at h
  | some p =>
      simp only [write, hp] at h ⊢
      split_ifs at h ⊢ with hbad hdirectory
      rw [find?, follow?_put_file t hdirectory, hp]
      exact get?_put_self ..

/-- A file that was written is found, wherever its names lead to. -/
theorem find?_of_writeDeep (h : (tree.writeDeep names t).1 = .ok ()) :
    (tree.writeDeep names t).2.find? names = some (.file t) := by
  rcases hmade : tree.makeDirectories (parent names) with ⟨outcome, made⟩
  cases outcome with
  | error fault => simp [writeDeep, hmade] at h
  | ok _ =>
      simp only [writeDeep, hmade] at h ⊢
      exact find?_of_write h

/-- Writing another file of the directory, even in vain, leaves what stands at a
name. -/
theorem find?_writeDeep_of_leadsTo (h : tree.LeadsTo names d) (hname : Path.IsProper name)
    (hname' : Path.IsProper name') (hne : name ≠ name') (t' : Text) :
    (tree.writeDeep (names ++ [name']) t').2.find? (names ++ [name]) =
      tree.find? (names ++ [name]) := by
  rw [writeDeep, makeDirectories_parent h hname']
  dsimp only
  rcases write_concat_cases h hname' t' with ⟨hdirectory, hwrite⟩ | ⟨fault, hwrite⟩
  · have hfollow : tree.follow? [] (names ++ [name]) = some (d ++ [name]) :=
      (follow?_concat_eq_some_iff hname).mpr ⟨d, h, rfl⟩
    have hpath : d ++ [name] ≠ d ++ [name'] := by simpa using hne
    rw [hwrite, find?, find?, follow?_put_file t' hdirectory, hfollow]
    exact get?_put_of_ne tree _ hpath
  · rw [hwrite]

/-- Writing another file of the directory, even in vain, leaves a file where it
is found. -/
theorem find?_writeDeep_of_ne (hname : Path.IsProper name) (hname' : Path.IsProper name')
    (hne : name ≠ name') (h : tree.find? (names ++ [name]) = some (.file t)) :
    (tree.writeDeep (names ++ [name']) t').2.find? (names ++ [name]) = some (.file t) := by
  obtain ⟨d, hd, -⟩ := (find?_concat_eq_some_iff hname).mp h
  rw [find?_writeDeep_of_leadsTo hd hname hname' hne, h]

/-- Writing a file of a directory in vain leaves the tree as it is. -/
theorem writeDeep_of_error {fault : IoFault} (h : tree.LeadsTo names d)
    (hname : Path.IsProper name) (hwrite : (tree.writeDeep (names ++ [name]) t).1 = .error fault) :
    (tree.writeDeep (names ++ [name]) t).2 = tree := by
  rw [writeDeep, makeDirectories_parent h hname] at hwrite ⊢
  rcases write_concat_cases h hname t with ⟨-, hdone⟩ | ⟨fault', hdone⟩
  · simp [hdone] at hwrite
  · simp [hdone]

end FileTree

/-! ## Documents -/

theorem DocumentKind.isProper_fileName (kind : DocumentKind) : Path.IsProper kind.fileName := by
  cases kind <;> exact ⟨by decide, by decide⟩

theorem DocumentKind.fileName_ne {kind other : DocumentKind} (h : kind ≠ other) :
    kind.fileName ≠ other.fileName := by
  cases kind with
  | config =>
      cases other with
      | config => exact absurd rfl h
      | keywords => decide
  | keywords =>
      cases other with
      | config => decide
      | keywords => exact absurd rfl h

namespace Store

theorem isProper_stateFile : Path.IsProper stateFile :=
  ⟨by decide, by decide⟩

theorem fileName_ne_stateFile (kind : DocumentKind) : kind.fileName ≠ stateFile := by
  cases kind <;> decide

variable {s : Store} {kind other : DocumentKind} {t : Text}

theorem load_eq_ok_some_iff :
    s.load kind = .ok (some t) ↔
      s.files.find? (s.root ++ [kind.fileName]) = some (.file t) := by
  rw [load, read, FileTree.read]
  cases s.files.find? (s.root ++ [kind.fileName]) with
  | none => simp [orMissing]
  | some e => cases e <;> simp [orMissing, Except.mapError]

theorem root_write (s : Store) (names : List Text) (t : Text) :
    (s.write names t).2.root = s.root := rfl

theorem files_write (s : Store) (names : List Text) (t : Text) :
    (s.write names t).2.files = (s.files.writeDeep (s.root ++ names) t).2 := rfl

/-- Writing another file leaves the last saved text of a document. -/
theorem load_write_of_ne {name : Text} (hname : Path.IsProper name) (hne : kind.fileName ≠ name)
    (h : s.load kind = .ok (some t)) (t' : Text) :
    (s.write [name] t').2.load kind = .ok (some t) := by
  rw [load_eq_ok_some_iff] at h ⊢
  rw [root_write, files_write]
  exact FileTree.find?_writeDeep_of_ne kind.isProper_fileName hname hne h

theorem read_of_write {names : List Text} (h : (s.write names t).1 = .ok ()) :
    (s.write names t).2.read names = .ok t := by
  have hdeep : (s.files.writeDeep (s.root ++ names) t).1 = .ok () := by
    cases houtcome : (s.files.writeDeep (s.root ++ names) t).1 with
    | ok _ => rfl
    | error fault => simp [write, houtcome, Except.mapError] at h
  rw [read, FileTree.read, root_write, files_write, FileTree.find?_of_writeDeep hdeep]
  rfl

theorem load_of_write (h : (s.write [kind.fileName] t).1 = .ok ()) :
    (s.write [kind.fileName] t).2.load kind = .ok (some t) := by
  rw [load, read_of_write h]
  rfl

/-- Saving the other document, even in vain, leaves the last saved text of a
document. -/
theorem load_save_of_ne (hne : kind ≠ other) (h : s.load kind = .ok (some t)) (t' : Text)
    (at_ : Moment) : (s.save other t' at_).2.load kind = .ok (some t) := by
  have hdocument := load_write_of_ne other.isProper_fileName (DocumentKind.fileName_ne hne) h t'
  unfold save
  split
  · next hwrite =>
      rw [hwrite] at hdocument
      exact hdocument
  · next hwrite =>
      rw [hwrite] at hdocument
      split
      · exact hdocument
      · exact load_write_of_ne isProper_stateFile (fileName_ne_stateFile kind) hdocument _

theorem load_of_save {at_ : Moment} (h : (s.save kind t at_).1 = .ok ()) :
    (s.save kind t at_).2.load kind = .ok (some t) := by
  rcases hwrite : s.write [kind.fileName] t with ⟨outcome, written⟩
  cases outcome with
  | error e => simp [save, hwrite] at h
  | ok _ =>
      have hdocument : written.load kind = .ok (some t) := by
        have hok : (s.write [kind.fileName] t).1 = .ok () := by rw [hwrite]
        simpa only [hwrite] using load_of_write hok
      cases hstate : written.state with
      | error e => simp [save, hwrite, hstate] at h
      | ok state =>
          have hsave :
              s.save kind t at_ = written.write [stateFile] (state.set kind at_).toText := by
            simp only [save, hwrite, hstate]
          rw [hsave]
          exact load_write_of_ne isProper_stateFile (fileName_ne_stateFile kind) hdocument _

end Store

end Marginalia

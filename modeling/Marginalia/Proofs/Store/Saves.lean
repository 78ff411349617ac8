import Marginalia.Proofs.Store.Directories
import Marginalia.Proofs.Store.FailedSave
import Marginalia.Proofs.Store.StateText

/-!
# Saves that succeed

A save that succeeds changes one document and its time.  Each save writes two
files of one directory, and what it reads from them does not depend on the saves
of the other document, so saves of the two documents commute, whether they
succeed or not.

What a save leaves alone is told of the files themselves: every other file
stands where it stood with its content, no file is new, and the times in the
directory have changed by one.  Unless the names of the directory go up from a
directory that is missing, the other document and its time are read before the
save as they are read after it.  Where they do, making the missing directory
makes the names lead to the files that were there all along: the other document
is loaded from then on, and until then it counted as one that was never saved.
-/

namespace Marginalia

namespace Store

variable {s s' : Store} {kind other : DocumentKind} {t u : Text} {at_ at' : Moment}
  {st : SavedState} {d p : Path} {name : Text} {e : Entry}

/-! ## The files of the directory -/

/-- Where the directory stands, whether or not its names lead there yet. -/
def directory (s : Store) : Path :=
  Path.reached [] s.root

/-- What stands under a name in the directory. -/
def held? (s : Store) (name : Text) : Option Entry :=
  s.files.get? (s.directory ++ [name])

/-- The times of saving that stand in the directory. -/
def heldTimes? (s : Store) : Option SavedState :=
  match s.held? stateFile with
  | none => some .empty
  | some (.file t) => SavedState.ofText? t
  | some _ => none

/-- When the names of the directory can be followed as soon as it is there: they
lead to it, or none of them goes up. -/
def HasPlainWay (s : Store) : Prop :=
  (∃ d, s.files.LeadsTo s.root d) ∨ ['.', '.'] ∉ s.root

theorem find?_eq_held? (h : s.files.LeadsTo s.root d) (hname : Path.IsProper name) :
    s.files.find? (s.root ++ [name]) = s.held? name := by
  have hfollow : s.files.follow? [] (s.root ++ [name]) = some (d ++ [name]) :=
    (FileTree.follow?_concat_eq_some_iff hname).mpr ⟨d, h, rfl⟩
  rw [FileTree.find?, hfollow, held?, directory, ← FileTree.follow?_eq_reached h.follow]
  rfl

theorem load_eq_ok_some_iff_held? (h : s.files.LeadsTo s.root d) :
    s.load kind = .ok (some t) ↔ s.held? kind.fileName = some (.file t) := by
  rw [load_eq_ok_some_iff, find?_eq_held? h kind.isProper_fileName]

theorem heldTimes?_of_state (h : s.files.LeadsTo s.root d) (hstate : s.state = .ok st) :
    s.heldTimes? = some st := by
  rw [state, read, FileTree.read, find?_eq_held? h isProper_stateFile] at hstate
  rw [heldTimes?]
  cases hheld : s.held? stateFile with
  | none =>
      rw [hheld] at hstate
      cases hstate
      rfl
  | some e =>
      rw [hheld] at hstate
      cases e with
      | directory => cases hstate
      | binary => cases hstate
      | file t =>
          cases htimes : SavedState.ofText? t with
          | none => simp [htimes, Except.mapError, orMissing] at hstate
          | some times => simpa [htimes, Except.mapError, orMissing] using hstate

/-! ## Opening the directory -/

/-- The store with its directory made, as far as it can be. -/
def opened (s : Store) : Store :=
  { s with files := (s.files.makeDirectories (Path.dropPoints s.root)).2 }

theorem opened_of_leadsTo (h : s.files.LeadsTo s.root d) : s.opened = s := by
  rw [opened, h.makeDirectories_eq]

theorem addsDirectories_opened (s : Store) : s.files.AddsDirectories s.opened.files :=
  FileTree.addsDirectories_makeDirectories s.files s.root

/-- Writing a file opens the directory first. -/
theorem write_opened (h : s.files.IsTree) (hname : Path.IsProper name) (t : Text) :
    s.opened.write [name] t = s.write [name] t := by
  have hroot : s.opened.root = s.root := rfl
  have hagain : s.opened.files.makeDirectories (Path.dropPoints s.root) =
      s.files.makeDirectories (Path.dropPoints s.root) := h.makeDirectories_makeDirectories s.root
  rw [write, write, FileTree.writeDeep, FileTree.writeDeep, hroot, FileTree.parent_concat hname,
    hagain]
  rfl

theorem save_opened (h : s.files.IsTree) : s.opened.save kind t at_ = s.save kind t at_ := by
  rw [save, save, write_opened h kind.isProper_fileName]

/-- Opening the directory leaves the times in it. -/
theorem heldTimes?_of_opened (h : s.opened.heldTimes? = some st) : s.heldTimes? = some st := by
  have hadds := addsDirectories_opened s
  rw [heldTimes?] at h ⊢
  cases hheld : s.opened.held? stateFile with
  | none =>
      rw [show s.held? stateFile = none from hadds.eq_none hheld]
      rwa [hheld] at h
  | some e =>
      rw [hheld] at h
      cases e with
      | directory => cases h
      | binary => cases h
      | file t =>
          rw [show s.held? stateFile = some (.file t) from (hadds.eq_some_iff (by simp)).mp hheld]
          exact h

/-- Opening the directory by a plain way shows no file that was not there. -/
theorem read_opened (h : s.files.IsTree) (hplain : s.HasPlainWay) (hname : Path.IsProper name) :
    s.opened.read [name] = s.read [name] := by
  by_cases hthere : ∃ d, s.files.LeadsTo s.root d
  · obtain ⟨d, hd⟩ := hthere
    rw [opened_of_leadsTo hd]
  · have hup : ['.', '.'] ∉ s.root := hplain.resolve_left hthere
    have hnone : s.files.find? (Path.dropPoints s.root) ≠ some .directory := by
      intro hfind
      obtain ⟨d, hfollow, hd⟩ := Option.bind_eq_some_iff.mp hfind
      exact hthere ⟨d, FileTree.leadsTo_of_dropPoints ⟨hfollow, hd⟩⟩
    have hbefore : s.files.find? (s.root ++ [name]) = none := by
      rw [Option.eq_none_iff_forall_ne_some]
      intro e he
      obtain ⟨d, hd, -⟩ := (FileTree.find?_concat_eq_some_iff hname).mp he
      exact hthere ⟨d, hd⟩
    have hafter : s.opened.files.find? (s.root ++ [name]) = none := by
      rw [Option.eq_none_iff_forall_ne_some]
      intro e he
      obtain ⟨d, hd, hget⟩ := (FileTree.find?_concat_eq_some_iff hname).mp he
      obtain rfl := FileTree.follow?_eq_reached hd.follow
      have hold : s.files.get? (Path.reached [] s.root ++ [name]) = some e := by
        rw [← hget, opened, FileTree.makeDirectories_eq_makeWay hnone]
        refine (FileTree.get?_makeWay_of_length_lt (Path.not_mem_dropPoints hup) ?_).symm
        simp [Path.reached_dropPoints]
      have hdirectory := (h _ (by rw [hold]; rintro ⟨⟩) _ _ rfl).1
      exact hthere ⟨_, h.leadsTo hup hdirectory⟩
    have hroot : s.opened.root = s.root := rfl
    rw [read, read, hroot, hbefore, hafter]
    rfl

theorem readsSame_opened (h : s.files.IsTree) (hplain : s.HasPlainWay) :
    s.ReadsSame s.opened where
  load kind := by rw [load, load, read_opened h hplain kind.isProper_fileName]
  state := by rw [state, state, read_opened h hplain isProper_stateFile]

/-- When the directory cannot be made, nothing is saved. -/
theorem save_of_not_opened {fault : IoFault}
    (h : (s.files.makeDirectories (Path.dropPoints s.root)).1 = .error fault) :
    s.save kind t at_ = (.error (.io fault), s.opened) := by
  have hwrite : s.write [kind.fileName] t = (.error (.io fault), s.opened) := by
    rcases hmade : s.files.makeDirectories (Path.dropPoints s.root) with ⟨outcome, made⟩
    obtain rfl : outcome = .error fault := by rw [hmade] at h; exact h
    rw [write, FileTree.writeDeep, FileTree.parent_concat kind.isProper_fileName, opened, hmade]
    rfl
  rw [save, hwrite]

/-! ## Saves into a directory that is there -/

/-- A save of a document fails when a name is too long or a directory stands in
its place. -/
def Blocked (s : Store) (kind : DocumentKind) : Prop :=
  s.root.all Path.isName = false ∨ s.load kind = .error (.io .isDirectory)

theorem load_eq_isDirectory_iff : s.load kind = .error (.io .isDirectory) ↔
    s.files.find? (s.root ++ [kind.fileName]) = some .directory := by
  rw [load, read, FileTree.read]
  cases s.files.find? (s.root ++ [kind.fileName]) with
  | none => simp [orMissing]
  | some e => cases e <;> simp [orMissing, Except.mapError]

theorem find?_stateFile_ne_directory (h : s.state = .ok st) :
    s.files.find? (s.root ++ [stateFile]) ≠ some .directory := by
  intro hfind
  rw [state, read, FileTree.read, hfind] at h
  cases h

/-- A file that is no directory is written, and nothing else changes. -/
theorem write_of_leadsTo (h : s.files.LeadsTo s.root d) (hname : Path.IsProper name)
    (hnames : (s.root ++ [name]).all Path.isName = true)
    (hfind : s.files.find? (s.root ++ [name]) ≠ some .directory) (t : Text) :
    (s.write [name] t).1 = .ok () ∧ (s.write [name] t).2.files.LeadsTo s.root d ∧
      ∀ p ≠ s.directory ++ [name], (s.write [name] t).2.files.get? p = s.files.get? p := by
  have hfollow : s.files.follow? [] (s.root ++ [name]) = some (d ++ [name]) :=
    (FileTree.follow?_concat_eq_some_iff hname).mpr ⟨d, h, rfl⟩
  have hfree : s.files.get? (d ++ [name]) ≠ some .directory := by
    rwa [FileTree.find?, hfollow] at hfind
  have hwrite : s.files.writeDeep (s.root ++ [name]) t =
      (.ok (), s.files.put (d ++ [name]) (.file t)) := by
    rw [FileTree.writeDeep, FileTree.makeDirectories_parent h hname]
    simp only [FileTree.write, hfollow, hnames, Bool.not_true, if_neg hfree]
    rfl
  rw [write, hwrite, directory, ← FileTree.follow?_eq_reached h.follow]
  exact ⟨rfl, h.put_file t hfree, fun p hp => FileTree.get?_put_of_ne s.files _ hp⟩

/-- A save that is blocked leaves the store as it is. -/
theorem save_of_blocked (h : s.files.LeadsTo s.root d) (hblocked : s.Blocked kind) (t : Text)
    (at_ : Moment) : ∃ e, s.save kind t at_ = (.error e, s) := by
  have hfollow : s.files.follow? [] (s.root ++ [kind.fileName]) = some (d ++ [kind.fileName]) :=
    (FileTree.follow?_concat_eq_some_iff kind.isProper_fileName).mpr ⟨d, h, rfl⟩
  have hfiles : ∃ fault, s.files.writeDeep (s.root ++ [kind.fileName]) t =
      (.error fault, s.files) := by
    rw [FileTree.writeDeep, FileTree.makeDirectories_parent h kind.isProper_fileName]
    simp only [FileTree.write, hfollow]
    rcases hblocked with hnames | hdirectory
    · rw [if_pos (by simp [hnames])]
      exact ⟨_, rfl⟩
    · rw [load_eq_isDirectory_iff, FileTree.find?, hfollow, Option.bind_some] at hdirectory
      simp only [hdirectory, if_true]
      split
      · exact ⟨_, rfl⟩
      · exact ⟨_, rfl⟩
  obtain ⟨fault, hfault⟩ := hfiles
  have hwrite : s.write [kind.fileName] t = (.error (.io fault), s) := by
    rw [write, hfault]
    rfl
  exact ⟨_, by rw [save, hwrite]⟩

/-- What a save into a directory that is there has done to the documents and the
times, unless it was blocked: the document is new, its time is new if the times
can be read, and the rest is as it was. -/
structure Saves (s s' : Store) (kind : DocumentKind) (t : Text) (at_ : Moment) : Prop where
  root : s'.root = s.root
  load : s'.load kind = .ok (some t)
  load_of_ne : ∀ other ≠ kind, s'.load other = s.load other
  state : s'.state = s.state.map (·.set kind at_)
  get?_of_ne : ∀ p, p ≠ s.directory ++ [kind.fileName] → p ≠ s.directory ++ [stateFile] →
    s'.files.get? p = s.files.get? p

theorem isName_fileName (kind : DocumentKind) : Path.isName kind.fileName = true := by
  cases kind <;> decide

theorem state_of_write (h : (s.write [stateFile] st.toText).1 = .ok ()) (hvalid : st.IsValid) :
    (s.write [stateFile] st.toText).2.state = .ok st := by
  rw [state, read_of_write h]
  simp only [orMissing, SavedState.ofText?_toText hvalid]

/-- Times that can be read are on the calendar and on the clock. -/
theorem isValid_of_state (h : s.state = .ok st) : st.IsValid := by
  unfold state at h
  split at h
  · cases h
  · cases h
    intro kind m hm
    cases kind <;> cases hm
  · split at h
    · next hread =>
        cases h
        exact SavedState.isValid_of_ofText? hread
    · cases h

theorem write_stateFile (h : s.files.LeadsTo s.root d) (hnames : s.root.all Path.isName = true)
    (hstate : ∃ st, s.state = .ok st) (hvalid : st.IsValid) :
    (s.write [stateFile] st.toText).1 = .ok () ∧
      (s.write [stateFile] st.toText).2.files.LeadsTo s.root d ∧
      (s.write [stateFile] st.toText).2.state = .ok st ∧
      (∀ kind, (s.write [stateFile] st.toText).2.load kind = s.load kind) ∧
      ∀ p ≠ s.directory ++ [stateFile],
        (s.write [stateFile] st.toText).2.files.get? p = s.files.get? p := by
  obtain ⟨old, hold⟩ := hstate
  have hall : (s.root ++ [stateFile]).all Path.isName = true := by
    rw [List.all_append, hnames]
    decide
  obtain ⟨hdone, hstays, hfiles⟩ := write_of_leadsTo h isProper_stateFile hall
    (find?_stateFile_ne_directory hold) st.toText
  exact ⟨hdone, hstays, state_of_write hdone hvalid,
    fun kind => load_write_of_leadsTo h isProper_stateFile (fileName_ne_stateFile kind) _, hfiles⟩

/-! ## The times -/

theorem savedAt_set (st : SavedState) (kind : DocumentKind) (at_ : Moment) :
    (st.set kind at_).savedAt kind = some at_ := by
  cases kind <;> rfl

theorem savedAt_set_of_ne (st : SavedState) (hne : other ≠ kind) (at_ : Moment) :
    (st.set kind at_).savedAt other = st.savedAt other := by
  cases kind <;> cases other <;> first | exact absurd rfl hne | rfl

theorem set_set_of_ne (st : SavedState) (hne : other ≠ kind) (at_ at' : Moment) :
    (st.set kind at_).set other at' = (st.set other at').set kind at_ := by
  cases kind <;> cases other <;> first | exact absurd rfl hne | rfl

theorem isValid_set (hst : st.IsValid) (hat : at_.isValid = true) (kind : DocumentKind) :
    (st.set kind at_).IsValid := by
  intro other m hm
  by_cases hother : other = kind
  · rw [hother, savedAt_set] at hm
    cases hm
    exact hat
  · rw [savedAt_set_of_ne st hother] at hm
    exact hst other m hm

/-! ## The two documents -/

/-- A save that is not blocked writes its document, and succeeds when the times
can be read. -/
theorem save_of_not_blocked (h : s.files.LeadsTo s.root d) (hfree : ¬s.Blocked kind)
    (hat : at_.isValid = true) (t : Text) :
    (s.save kind t at_).1 = s.state.map (fun _ => ()) ∧
      (s.save kind t at_).2.files.LeadsTo s.root d ∧ s.Saves (s.save kind t at_).2 kind t at_ := by
  obtain ⟨hnames, hdirectory⟩ := not_or.mp hfree
  rw [Bool.not_eq_false] at hnames
  rw [load_eq_isDirectory_iff] at hdirectory
  have hall : (s.root ++ [kind.fileName]).all Path.isName = true := by
    rw [List.all_append, hnames, List.all_cons, isName_fileName]
    rfl
  obtain ⟨hok, hwritten, hfiles⟩ := write_of_leadsTo h kind.isProper_fileName hall hdirectory t
  have hload := load_of_write hok
  have hothers : ∀ other ≠ kind, (s.write [kind.fileName] t).2.load other = s.load other :=
    fun other hother => load_write_of_leadsTo h kind.isProper_fileName
      (DocumentKind.fileName_ne hother) t
  have hstate := state_write_of_leadsTo h kind t
  have hroot := root_write s [kind.fileName] t
  rcases hwrite : s.write [kind.fileName] t with ⟨outcome, written⟩
  rw [hwrite] at hok hwritten hfiles hload hothers hstate hroot
  dsimp only at hok hwritten hfiles hload hothers hstate hroot
  subst hok
  cases htimes : s.state with
  | error fault =>
      have hsave : s.save kind t at_ = (.error fault, written) := by
        simp only [save, hwrite, hstate, htimes]
      rw [hsave]
      exact ⟨rfl, hwritten, hroot, hload, hothers, by rw [hstate, htimes]; rfl,
        fun p hp _ => hfiles p hp⟩
  | ok st =>
      have hstate' := hstate.trans htimes
      have hsave : s.save kind t at_ = written.write [stateFile] (st.set kind at_).toText := by
        simp only [save, hwrite, hstate']
      have hplace : written.directory = s.directory := by rw [directory, hroot, directory]
      rw [← hroot] at hnames hwritten
      obtain ⟨hdone, hstays, hset, hkept, hrest⟩ := write_stateFile hwritten hnames ⟨st, hstate'⟩
        (isValid_set (isValid_of_state hstate') hat kind)
      rw [hsave, ← hroot]
      refine ⟨hdone, hstays, (root_write ..).trans hroot, (hkept kind).trans hload,
        fun other hother => (hkept other).trans (hothers other hother), by rw [hset, htimes]; rfl,
        fun p hp hp' => ?_⟩
      rw [hrest p (hplace ▸ hp'), hfiles p hp]

theorem blocked_congr (hroot : s'.root = s.root) (hload : s'.load kind = s.load kind) :
    s'.Blocked kind ↔ s.Blocked kind := by
  rw [Blocked, Blocked, hroot, hload]

/-- A save that is blocked does nothing before the save of the other document or
behind it. -/
theorem save_save_of_blocked (h : s.files.LeadsTo s.root d) (hblocked : s.Blocked kind)
    (hne : kind ≠ other) (hat' : at'.isValid = true) (t u : Text) :
    ((s.save kind t at_).2.save other u at').2 = ((s.save other u at').2.save kind t at_).2 := by
  obtain ⟨fault, hkind⟩ := save_of_blocked h hblocked t at_
  rw [hkind]
  dsimp only
  by_cases hother : s.Blocked other
  · obtain ⟨fault', hother'⟩ := save_of_blocked h hother u at'
    rw [hother', hkind]
  · obtain ⟨-, hstays, hsaves⟩ := save_of_not_blocked h hother hat' u
    have hstill : (s.save other u at').2.Blocked kind :=
      (blocked_congr hsaves.root (hsaves.load_of_ne kind hne)).mpr hblocked
    rw [← hsaves.root] at hstays
    obtain ⟨fault', hkind'⟩ := save_of_blocked hstays hstill t at_
    rw [hkind']

/-- Two saves that are not blocked both take effect. -/
theorem save_save_of_not_blocked (h : s.files.LeadsTo s.root d) (hkind : ¬s.Blocked kind)
    (hother : ¬s.Blocked other) (hne : kind ≠ other) (hat : at_.isValid = true)
    (hat' : at'.isValid = true) (t u : Text) :
    ((s.save kind t at_).2.save other u at').2.load kind = .ok (some t) ∧
      ((s.save kind t at_).2.save other u at').2.load other = .ok (some u) ∧
      ((s.save kind t at_).2.save other u at').2.state =
        s.state.map fun st => (st.set kind at_).set other at' := by
  obtain ⟨-, hstays, hfirst⟩ := save_of_not_blocked h hkind hat t
  have hstill : ¬(s.save kind t at_).2.Blocked other :=
    mt (blocked_congr hfirst.root (hfirst.load_of_ne other hne.symm)).mp hother
  rw [← hfirst.root] at hstays
  obtain ⟨-, -, hsecond⟩ := save_of_not_blocked hstays hstill hat' u
  refine ⟨(hsecond.load_of_ne kind hne).trans hfirst.load, hsecond.load, ?_⟩
  rw [hsecond.state, hfirst.state]
  cases s.state <;> rfl

/-- Saves of the two documents into a directory that is there leave the same in
either order. -/
theorem readsSame_save_save_of_leadsTo (h : s.files.LeadsTo s.root d) (hne : kind ≠ other)
    (hat : at_.isValid = true) (hat' : at'.isValid = true) (t u : Text) :
    ReadsSame ((s.save kind t at_).2.save other u at').2
      ((s.save other u at').2.save kind t at_).2 := by
  by_cases hkind : s.Blocked kind
  · rw [save_save_of_blocked h hkind hne hat' t u]
    exact ⟨fun _ => rfl, rfl⟩
  · by_cases hother : s.Blocked other
    · rw [save_save_of_blocked h hother hne.symm hat u t]
      exact ⟨fun _ => rfl, rfl⟩
    · obtain ⟨hload, hload', hstate₁⟩ := save_save_of_not_blocked h hkind hother hne hat hat' t u
      obtain ⟨hload₂', hload₂, hstate₂⟩ :=
        save_save_of_not_blocked h hother hkind hne.symm hat' hat u t
      refine ⟨fun other' => ?_, ?_⟩
      · obtain rfl | rfl : other' = kind ∨ other' = other := by
          cases kind <;> cases other <;> cases other' <;> simp_all
        · rw [hload, hload₂]
        · rw [hload', hload₂']
      · simp only [hstate₁, hstate₂, set_set_of_ne _ hne]

/-! ## One document and its time -/

/-- What a save has changed that succeeded: the document is loaded with its new
text and the times name its new time; every other file stands as it stood and no
file is new; the other document is loaded from the file that stood under its
name, and its time is the one that stood in the directory.  By a plain way the
other document and the times were read like that before the save as well. -/
structure SavesOne (s s' : Store) (kind : DocumentKind) (t : Text) (at_ : Moment) : Prop where
  load : s'.load kind = .ok (some t)
  file : ∀ p, p ≠ s.directory ++ [kind.fileName] → p ≠ s.directory ++ [stateFile] →
    ∀ e ≠ .directory, s'.files.get? p = some e ↔ s.files.get? p = some e
  load_of_ne : ∀ other ≠ kind, ∀ u,
    s'.load other = .ok (some u) ↔ s.held? other.fileName = some (.file u)
  state : ∃ st st', s.heldTimes? = some st ∧ s'.state = .ok st' ∧ st'.savedAt kind = some at_ ∧
    (∀ other ≠ kind, st'.savedAt other = st.savedAt other) ∧ (s.HasPlainWay → s.state = .ok st)
  load_of_plain : s.HasPlainWay → ∀ other ≠ kind, s'.load other = s.load other

/-- A save into the opened directory that succeeded has changed one document and
its time. -/
theorem savesOne_of_opened (htree : s.files.IsTree) (hd : s.opened.files.LeadsTo s.root d)
    (hsaves : s.opened.Saves s' kind t at_) (hstate : s.opened.state = .ok st) :
    s.SavesOne s' kind t at_ where
  load := hsaves.load
  file p hp hp' e he := by
    rw [hsaves.get?_of_ne p hp hp', (addsDirectories_opened s).eq_some_iff he]
  load_of_ne other hother u := by
    rw [hsaves.load_of_ne other hother, load_eq_ok_some_iff_held? hd]
    exact (addsDirectories_opened s).eq_some_iff (by simp)
  state := by
    refine ⟨st, st.set kind at_, heldTimes?_of_opened (heldTimes?_of_state hd hstate), ?_,
      savedAt_set st kind at_, fun other hother => savedAt_set_of_ne st hother at_,
      fun hplain => ?_⟩
    · rw [hsaves.state, hstate]
      rfl
    · rw [← (readsSame_opened htree hplain).state, hstate]
  load_of_plain hplain other hother :=
    (hsaves.load_of_ne other hother).trans ((readsSame_opened htree hplain).load other)

/-- A save that succeeds changes one document and its time, and it commutes with
every save of the other document: in either order the same texts and times are
left. -/
theorem savesOne_and_save_comm (htree : s.files.IsTree) (kind : DocumentKind) (t : Text)
    (hat : at_.isValid = true) :
    ((s.save kind t at_).1 = .ok () → s.SavesOne (s.save kind t at_).2 kind t at_) ∧
      ∀ other ≠ kind, ∀ u at', at'.isValid = true →
        ReadsSame ((s.save kind t at_).2.save other u at').2
          ((s.save other u at').2.save kind t at_).2 := by
  rcases hopens : (s.files.makeDirectories (Path.dropPoints s.root)).1 with fault | _
  · -- Without a directory neither document is saved, and the directory cannot be made later.
    have hnever : ∀ kind t at_, s.save kind t at_ = (.error (.io fault), s.opened) :=
      fun _ _ _ => save_of_not_opened hopens
    refine ⟨fun hok => ?_, fun other _ u at' _ => ?_⟩
    · rw [hnever] at hok
      cases hok
    · simp only [hnever, save_opened htree]
      exact ⟨fun _ => rfl, rfl⟩
  · obtain ⟨d, hd⟩ := FileTree.exists_leadsTo_of_makeDirectories hopens
    refine ⟨fun hok => ?_, fun other hne u at' hat' => ?_⟩
    · rw [← save_opened htree] at hok ⊢
      have hfree : ¬s.opened.Blocked kind := by
        intro hblocked
        obtain ⟨fault, hfault⟩ := save_of_blocked hd hblocked t at_
        rw [hfault] at hok
        cases hok
      obtain ⟨houtcome, -, hsaves⟩ := save_of_not_blocked hd hfree hat t
      rw [hok] at houtcome
      cases hstate : s.opened.state with
      | error fault => rw [hstate] at houtcome; cases houtcome
      | ok st => exact savesOne_of_opened htree hd hsaves hstate
    · rw [← save_opened htree, ← save_opened htree]
      exact readsSame_save_save_of_leadsTo hd hne.symm hat hat' t u

-- From `/s/x/..` without `x` the keywords in `/s` are out of reach until the
-- first save makes `x`.
example :
    let s : Store := ⟨"/s/x/..".toList, [], ⟨[([], .directory), ([['s']], .directory),
      ([['s'], DocumentKind.keywords.fileName], .file ['k'])]⟩⟩
    s.load .keywords = .ok none ∧ s.held? DocumentKind.keywords.fileName = some (.file ['k']) ∧
      (s.save .config ['a'] ⟨⟨2026, 1, 2⟩, 3, 4, 5, 0⟩).2.load .keywords = .ok (some ['k']) := by
  decide +kernel

/-- A store that holds the keywords and the time of their saving. -/
def withKeywords : Store :=
  ⟨"/s".toList, [], ⟨[([], .directory), ([['s']], .directory),
    ([['s'], DocumentKind.keywords.fileName], .file ['k']),
    ([['s'], stateFile], .file "keywords_saved_at = \"2026-01-02T03:04:05Z\"\n".toList)]⟩⟩

theorem savesOne_and_save_comm_withKeywords :
    withKeywords.SavesOne (withKeywords.save .config ['a'] ⟨⟨-44, 2, 29⟩, 23, 59, 60, 1000⟩).2
        .config ['a'] ⟨⟨-44, 2, 29⟩, 23, 59, 60, 1000⟩ ∧
      ReadsSame
        ((withKeywords.save .config ['a'] ⟨⟨-44, 2, 29⟩, 23, 59, 60, 1000⟩).2.save .keywords ['b']
          ⟨⟨12026, 12, 31⟩, 0, 0, 0, 0⟩).2
        ((withKeywords.save .keywords ['b'] ⟨⟨12026, 12, 31⟩, 0, 0, 0, 0⟩).2.save .config ['a']
          ⟨⟨-44, 2, 29⟩, 23, 59, 60, 1000⟩).2 := by
  have hok : (withKeywords.save .config ['a'] ⟨⟨-44, 2, 29⟩, 23, 59, 60, 1000⟩).1 = .ok () := by
    decide +kernel
  have htree : withKeywords.files.IsTree := by decide
  obtain ⟨hone, hcomm⟩ := savesOne_and_save_comm htree .config ['a']
    (show Moment.isValid ⟨⟨-44, 2, 29⟩, 23, 59, 60, 1000⟩ = true by decide)
  exact ⟨hone hok, hcomm .keywords (by decide) ['b'] _ (by decide)⟩

end Store

end Marginalia

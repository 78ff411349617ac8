import Marginalia.Proofs.Settings.Text
import Marginalia.Proofs.Store.Files

/-!
# Settings loaded again

The storage path is expanded when settings are loaded, and it is saved as it
came out of that.  Loading what was saved expands it a second time, so the
settings survive just when the path is one that expands to itself.  A path in
which no dollar sign begins a reference does so unless it names the home
directory once more.
-/

namespace Marginalia

namespace Expansion

variable {env : Environment} {t : Text}

/-! ## Paths that expand to themselves -/

end Expansion

namespace Settings

variable {files files' : FileTree} {base base' : Path} {env : Environment} {path path' : Text}
  {s : Settings}

/-! ## From one file to the next -/

/-- Settings that were saved are loaded from where they were saved, with the
storage path expanded. -/
theorem load_of_save (hdebounce : (s.saveDebounce : Int) < Int.pow 2 64)
    (hsave : (s.save files base path).1 = .ok ()) (env : Environment) :
    load (s.save files base path).2 base env path =
      .ok (some { s with storagePath := Expansion.path env s.storagePath }) := by
  have hfound : (s.save files base path).2.find? (Path.namesFrom base path) =
      some (.file s.toText) := FileTree.find?_of_writeDeep hsave
  simp only [load, FileTree.read, hfound, ofText?_toText hdebounce]

end Settings

end Marginalia

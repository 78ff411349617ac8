import Marginalia.Proofs.Session.Shown

/-!
# What is rendered is what the text gives

Each change of the form and each load ends by rendering the form once, from the
text that the call leaves behind; all other calls render nothing.  What is
rendered may have been kept from an earlier call, so this rests on
`Session.Current`: no call gives another text under a version that was reached.
-/

namespace Marginalia

namespace Session

variable {View Change : Type} [Document View Change]

variable {s : Session View}

theorem text_load (s : Session View) (t : Text) (source : LoadSource) (now : Nat) :
    (s.load t source now).2.text = t := by
  by_cases hstorage : source = .storage
  · simp [Session.load, hstorage, refresh, Session.view, text, Buffer.replaceAll, Buffer.markSaved]
  · simp [Session.load, hstorage, refresh, Session.view, text, Buffer.replaceAll]

end Session

end Marginalia

import Marginalia.Proofs.Yaml.Consumed
import Marginalia.Proofs.Yaml.EntryValue

/-!
# How often aliases are followed

The reader counts the aliases that it follows against a limit.  A value that it
reads is the same when the limit leaves at least as much room: `eases_ofNode`.
-/

namespace Marginalia.Yaml

namespace Value

/-- From a count `n` under the limit `a` there is no more room than from `n'`
under `b`. -/
def NoMoreRoom (a b : Anchors) (n n' : Nat) : Prop :=
  n' + a.limit ≤ n + b.limit

/-- Counting never goes down, and where `x` gives a value, `y` gives it when
there is no less room for it, and leaves no less. -/
def Eases {α : Type} (a b : Anchors) (x y : StateT Nat (Except Error) α) : Prop :=
  ∀ n v m, x.run n = .ok (v, m) → n ≤ m ∧
    ∀ n', NoMoreRoom a b n n' → ∃ m', y.run n' = .ok (v, m') ∧ NoMoreRoom a b m m'

namespace Eases

variable {α β : Type} {a b : Anchors} {x y : StateT Nat (Except Error) α}

theorem pure (v : α) : Eases a b (pure v) (pure v) := by
  intro n w m h
  obtain ⟨rfl, rfl⟩ := Prod.mk.inj (Except.ok.inj h)
  exact ⟨Nat.le_refl n, fun n' hroom => ⟨n', rfl, hroom⟩⟩

theorem of_error (h : ∀ n, ∃ e, x.run n = .error e) : Eases a b x y := by
  intro n v m hx
  obtain ⟨e, he⟩ := h n
  rw [he] at hx
  cases hx

theorem lift (z : Except Error α) : Eases a b (liftM z) (liftM z) := by
  cases z with
  | error e => exact of_error fun n => ⟨e, rfl⟩
  | ok v => exact pure v

theorem bind {f g : α → StateT Nat (Except Error) β} (hx : Eases a b x y)
    (hf : ∀ v, Eases a b (f v) (g v)) : Eases a b (x >>= f) (y >>= g) := by
  intro n v m h
  rw [StateT.run_bind] at h
  obtain ⟨⟨w, k⟩, hw, h⟩ := bind_eq_ok_iff.mp h
  obtain ⟨hle, hroom⟩ := hx n w k hw
  obtain ⟨hle', hroom'⟩ := hf w k v m h
  refine ⟨Nat.le_trans hle hle', fun n' hn' => ?_⟩
  obtain ⟨k', hw', hk'⟩ := hroom n' hn'
  obtain ⟨m', hv', hm'⟩ := hroom' k' hk'
  refine ⟨m', ?_, hm'⟩
  rw [StateT.run_bind]
  exact bind_eq_ok_iff.mpr ⟨(w, k'), hw', hv'⟩

theorem mapM {γ : Type} {f g : γ → StateT Nat (Except Error) β} (hf : ∀ c, Eases a b (f c) (g c))
    (cs : List γ) : Eases a b (cs.mapM f) (cs.mapM g) := by
  induction cs with
  | nil => exact pure []
  | cons c cs ih =>
      rw [List.mapM_cons, List.mapM_cons]
      exact bind (hf c) fun v => bind ih fun vs => pure (v :: vs)

end Eases

variable {a b : Anchors}

theorem eases_follow (hnodes : a.nodes = b.nodes) (n : Node) :
    Eases a b (a.follow n) (b.follow n) := by
  cases n with
  | aliasTo anchor =>
      have hfollow : ∀ (c : Anchors) (k : Nat), (c.follow (.aliasTo anchor)).run k =
          if c.limit < k + 1 then .error .tooManyAliases else .ok (c.node? anchor, k + 1) := by
        intro c k
        have hrun : (c.follow (.aliasTo anchor)).run k =
            (if c.limit < k + 1 then throw .tooManyAliases else pure (c.node? anchor) :
              StateT Nat (Except Error) (Option Node)).run (k + 1) := rfl
        rw [hrun]
        split <;> rfl
      have hnode : a.node? anchor = b.node? anchor := by rw [Anchors.node?, Anchors.node?, hnodes]
      intro k v m h
      rw [hfollow] at h
      split at h
      · cases h
      · next hlimit =>
          obtain ⟨rfl, rfl⟩ := Prod.mk.inj (Except.ok.inj h)
          refine ⟨Nat.le_succ k, fun k' hroom => ⟨k' + 1, ?_, ?_⟩⟩
          · unfold NoMoreRoom at hroom
            rw [hfollow, if_neg (by omega), hnode]
          · unfold NoMoreRoom at hroom ⊢
            omega
  | scalar => exact Eases.pure none
  | sequence => exact Eases.pure none
  | mapping => exact Eases.pure none

theorem eases_ofNode (hnodes : a.nodes = b.nodes) (left : Nat) (tagRead : Bool) (n : Node) :
    Eases a b (ofNode a left tagRead n) (ofNode b left tagRead n) := by
  induction left generalizing tagRead n with
  | zero =>
      unfold ofNode
      refine Eases.bind (eases_follow hnodes n) fun followed => ?_
      dsimp only
      split
      · exact Eases.of_error fun _ => ⟨_, rfl⟩
      · split
        · exact Eases.bind (Eases.lift _) fun _ => Eases.pure _
        · exact Eases.lift _
      · exact Eases.of_error fun _ => ⟨_, rfl⟩
      · exact Eases.of_error fun _ => ⟨_, rfl⟩
  | succ left ih =>
      unfold ofNode
      refine Eases.bind (eases_follow hnodes n) fun followed => ?_
      dsimp only
      split
      · exact Eases.of_error fun _ => ⟨_, rfl⟩
      · split
        · exact Eases.bind (Eases.lift _) fun _ => Eases.pure _
        · exact Eases.lift _
      · refine Eases.bind (Eases.mapM (ih false) _) fun items => ?_
        split <;> exact Eases.pure _
      · refine Eases.bind (Eases.mapM (fun e => ?_) _) fun entries => ?_
        · exact Eases.bind (ih _ e.1) fun _ => Eases.bind (ih _ e.2) fun _ => Eases.pure _
        · refine Eases.bind (Eases.lift _) fun v => ?_
          split <;> exact Eases.pure _

end Value

end Marginalia.Yaml

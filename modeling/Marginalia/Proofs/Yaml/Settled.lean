import Marginalia.Proofs.Yaml.Consumed
import Marginalia.Yaml.Token.Scan
import Mathlib.Data.List.InsertIdx

/-!
# Tokens that are settled

A token is put in before others only at a place where a key may have begun.  So
once every such place lies behind the first tokens of a document, those tokens
stay what they are.  The module says so for each change of the scanner's state.
-/

namespace Marginalia.Yaml

namespace Token

/-- A scalar of at most `n` characters, or another token. -/
def Short (n : Nat) : Token → Prop
  | scalar _ text => text.length ≤ n
  | _ => True

end Token

namespace Scan

/-- The tokens `ts`, which are in reverse, begin with `base`, and no scalar
behind `base` has more than `n` characters. -/
def Continues (base : List Token) (n : Nat) (ts : List Token) : Prop :=
  ∃ later, ts = later ++ base ∧ ∀ t ∈ later, t.Short n

/-- The tokens `base`, which are in reverse, are settled: the tokens behind them
are short, and no key begins among them. -/
structure Settled (base : List Token) (n : Nat) (s : Scan) : Prop where
  later : ∃ later, s.tokens = later ++ base ∧ ∀ t ∈ later, t.Short n
  starts : ∀ k ∈ s.candidate :: s.outer, ∀ start ∈ k, base.length ≤ start.tokens

variable {base : List Token} {n : Nat} {s s' : Scan}

theorem insertIdx_append_of_le {α : Type} {xs : List α} {k : Nat} (hk : k ≤ xs.length)
    (ys : List α) (a : α) : (xs ++ ys).insertIdx k a = xs.insertIdx k a ++ ys := by
  induction xs generalizing k with
  | nil =>
      obtain rfl : k = 0 := Nat.le_zero.mp hk
      rfl
  | cons x xs ih =>
      cases k with
      | zero => rfl
      | succ k => simp [ih (Nat.le_of_succ_le_succ hk)]

namespace Settled

theorem congr (h : Settled base n s) (htokens : s'.tokens = s.tokens)
    (hstarts : ∀ k ∈ s'.candidate :: s'.outer, k ∈ s.candidate :: s.outer ∨ k = none) :
    Settled base n s' := by
  constructor
  · rw [htokens]
    exact h.later
  · intro k hk start hstart
    rcases hstarts k hk with hk | rfl
    · exact h.starts k hk start hstart
    · simp at hstart

theorem length_le (h : Settled base n s) : base.length ≤ s.tokens.length := by
  obtain ⟨later, htokens, -⟩ := h.later
  rw [htokens, List.length_append]
  exact Nat.le_add_left ..

theorem push (h : Settled base n s) {t : Token} (ht : t.Short n) : Settled base n (s.push t) := by
  obtain ⟨later, htokens, hlater⟩ := h.later
  refine ⟨⟨t :: later, ?_, ?_⟩, h.starts⟩
  · rw [Scan.push, htokens, List.cons_append]
  · exact List.forall_mem_cons.mpr ⟨ht, hlater⟩

/-- A token behind the settled ones leaves them where they are. -/
theorem pushAt (h : Settled base n s) {t : Token} (ht : t.Short n) {k : Nat}
    (hk : base.length ≤ k) : Settled base n (s.pushAt k t) := by
  obtain ⟨later, htokens, hlater⟩ := h.later
  have hplace : s.tokens.length - k ≤ later.length := by
    rw [htokens, List.length_append]
    omega
  refine ⟨⟨later.insertIdx (s.tokens.length - k) t, ?_, ?_⟩, h.starts⟩
  · rw [Scan.pushAt, htokens]
    rw [htokens] at hplace
    exact insertIdx_append_of_le hplace base t
  · intro a ha
    rcases List.eq_or_mem_of_mem_insertIdx ha with rfl | ha
    · exact ht
    · exact hlater a ha

theorem roll (h : Settled base n s) {t : Token} (ht : t.Short n) (column : Nat) {k : Nat}
    (hk : base.length ≤ k) : Settled base n (s.roll column k t) := by
  have hplaced := h.pushAt ht hk
  unfold Scan.roll
  dsimp only
  split_ifs
  · exact h
  · exact hplaced.congr rfl fun _ => Or.inl
  · exact h

theorem unrollAll (h : Settled base n s) : Settled base n s.unrollAll := by
  unfold Scan.unrollAll
  split_ifs
  · exact h
  · obtain ⟨later, htokens, hlater⟩ := h.later
    refine ⟨⟨s.indents.map (fun _ => Token.blockEnd) ++ later, ?_, ?_⟩, h.starts⟩
    · dsimp only
      rw [htokens, List.append_assoc]
    · intro t ht
      rcases List.mem_append.mp ht with ht | ht
      · obtain ⟨-, -, rfl⟩ := List.mem_map.mp ht
        trivial
      · exact hlater t ht

theorem exists_closeIndents_eq (column : Nat) (indents : List Nat) (tokens : List Token) :
    ∃ closed, (closeIndents column indents tokens).2 = closed ++ tokens ∧
      ∀ t ∈ closed, t = Token.blockEnd := by
  induction indents generalizing tokens with
  | nil => exact ⟨[], rfl, by simp⟩
  | cons i indents ih =>
      rw [closeIndents]
      split_ifs
      · obtain ⟨closed, hclosed, hends⟩ := ih (.blockEnd :: tokens)
        refine ⟨closed ++ [.blockEnd], ?_, ?_⟩
        · rw [hclosed, List.append_assoc, List.singleton_append]
        · intro t ht
          rcases List.mem_append.mp ht with ht | ht
          · exact hends t ht
          · exact List.mem_singleton.mp ht
      · exact ⟨[], rfl, by simp⟩

theorem unroll (h : Settled base n s) (column : Nat) : Settled base n (s.unroll column) := by
  unfold Scan.unroll
  split_ifs
  · exact h
  · obtain ⟨later, htokens, hlater⟩ := h.later
    obtain ⟨closed, hclosed, hends⟩ := exists_closeIndents_eq column s.indents s.tokens
    refine ⟨⟨closed ++ later, ?_, ?_⟩, h.starts⟩
    · dsimp only
      rw [hclosed, htokens, List.append_assoc]
    · intro t ht
      rcases List.mem_append.mp ht with ht | ht
      · rw [hends t ht]
        trivial
      · exact hlater t ht

end Settled

/-! ## Places of keys -/

theorem settled_forgetKey (h : Settled base n s) :
    Ensures (fun s' => Settled base n s' ∧ ∃ k, s' = { s with candidate := k }) s.forgetKey := by
  unfold forgetKey
  split_ifs
  · exact Ensures.error _
  · apply Ensures.ok
    refine ⟨h.congr rfl ?_, none, rfl⟩
    intro k hk
    rcases List.mem_cons.mp hk with rfl | hk
    · exact Or.inr rfl
    · exact Or.inl (List.mem_cons_of_mem _ hk)

theorem settled_markKey (h : Settled base n s) :
    Ensures (fun s' => Settled base n s' ∧ ∃ k, s' = { s with candidate := k }) s.markKey := by
  unfold markKey
  split_ifs
  · exact Ensures.ok ⟨h, s.candidate, rfl⟩
  · refine Ensures.bind (settled_forgetKey h) ?_
    rintro s' ⟨h', k, rfl⟩
    apply Ensures.ok
    refine ⟨⟨h'.later, ?_⟩, _, rfl⟩
    intro k' hk' start hstart
    rcases List.mem_cons.mp hk' with rfl | hk'
    · obtain rfl := Option.some.inj hstart
      exact h.length_le
    · exact h.starts k' (List.mem_cons_of_mem _ hk') start hstart

theorem ensures_refresh (c : Cursor) (k : Option KeyStart) :
    Ensures (fun k' => k' = k ∨ k' = none) (refresh c k) := by
  unfold refresh
  split
  · exact Ensures.ok (Or.inr rfl)
  · split_ifs
    · exact Ensures.error _
    · exact Ensures.ok (Or.inr rfl)
    · exact Ensures.ok (Or.inl rfl)

theorem settled_dropStale (h : Settled base n s) :
    Ensures (fun s' => Settled base n s' ∧ s'.cursor = s.cursor) s.dropStale := by
  have houter : Ensures (fun ks => ∀ k ∈ ks, k ∈ s.outer ∨ k = none)
      (s.outer.mapM (refresh s.cursor)) := by
    refine (Ensures.mapM fun k _ => ensures_refresh s.cursor k).mono ?_
    intro ks hks k hk
    obtain ⟨k', hk', rfl | rfl⟩ := hks k hk
    · exact Or.inl hk'
    · exact Or.inr rfl
  unfold dropStale
  refine Ensures.bind (ensures_refresh s.cursor s.candidate) ?_
  intro candidate hcandidate
  refine Ensures.bind houter ?_
  intro outer houter
  apply Ensures.ok
  refine ⟨h.congr rfl ?_, rfl⟩
  intro k hk
  rcases List.mem_cons.mp hk with rfl | hk
  · rcases hcandidate with hcandidate | hcandidate
    · left
      rw [hcandidate]
      exact List.mem_cons_self ..
    · exact Or.inr hcandidate
  · rcases houter k hk with hk | hk
    · exact Or.inl (List.mem_cons_of_mem _ hk)
    · exact Or.inr hk

end Scan

end Marginalia.Yaml

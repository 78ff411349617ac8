import Marginalia.Proofs.Yaml.Folding
import Marginalia.Yaml.Token.Block
import Marginalia.Yaml.Token.Plain

/-!
# A scalar is no longer than its source

Folding, escapes and headers only take characters away: the text of a scalar and
what is left of the document behind it are together no longer than the document
was before it.
-/

namespace Marginalia.Yaml

theorem bind_eq_ok_iff {ε α β : Type} {x : Except ε α} {f : α → Except ε β} {r : β} :
    x >>= f = .ok r ↔ ∃ a, x = .ok a ∧ f a = .ok r := by
  cases x with
  | error e => simp [bind, Except.bind]
  | ok a => simp [bind, Except.bind]

theorem isSome_toOption_iff {ε α : Type} {x : Except ε α} :
    x.toOption.isSome = true ↔ ∃ a, x = .ok a := by
  cases x <;> simp [Except.toOption]

/-- A reading that gives only results with a property, if it gives any. -/
def Ensures {α : Type} (P : α → Prop) (x : Except Error α) : Prop :=
  ∀ a, x = .ok a → P a

namespace Ensures

variable {α β : Type} {P : α → Prop} {Q : β → Prop}

theorem ok {a : α} (h : P a) : Ensures P (.ok a) := by
  intro b hb
  rwa [← Except.ok.inj hb]

theorem error (e : Error) : Ensures P (.error e) := by
  intro a ha
  simp at ha

theorem bind {x : Except Error α} {f : α → Except Error β} (hx : Ensures P x)
    (hf : ∀ a, P a → Ensures Q (f a)) : Ensures Q (x >>= f) := by
  cases x with
  | error e => exact error e
  | ok a => exact hf a (hx a rfl)

theorem mono {P' : α → Prop} {x : Except Error α} (hx : Ensures P x) (h : ∀ a, P a → P' a) :
    Ensures P' x :=
  fun a ha => h a (hx a ha)

theorem ite {p : Prop} [Decidable p] {x y : Except Error α} (hx : p → Ensures P x)
    (hy : Ensures P y) : Ensures P (if p then x else y) := by
  split
  · next hp => exact hx hp
  · exact hy

theorem mapM {f : α → Except Error β} {R : α → β → Prop} {xs : List α}
    (hf : ∀ a ∈ xs, Ensures (R a) (f a)) :
    Ensures (fun ys => ∀ b ∈ ys, ∃ a ∈ xs, R a b) (xs.mapM f) := by
  induction xs with
  | nil =>
      rw [List.mapM_nil]
      exact ok (by simp)
  | cons a xs ih =>
      rw [List.mapM_cons]
      refine bind (hf a (List.mem_cons_self ..)) ?_
      intro b hb
      refine bind (ih fun a' ha' => hf a' (List.mem_cons_of_mem a ha')) ?_
      intro bs hbs
      apply ok
      intro b' hb'
      rcases List.mem_cons.mp hb' with rfl | hb'
      · exact ⟨a, List.mem_cons_self .., hb⟩
      · obtain ⟨a', ha', h⟩ := hbs b' hb'
        exact ⟨a', List.mem_cons_of_mem a ha', h⟩

end Ensures

namespace Token

/-- A text and the rest behind it have at most `n` characters. -/
def Within (n : Nat) (p : Text × Cursor) : Prop :=
  p.1.length + p.2.rest.length ≤ n

/-! ## Quoted scalars -/

theorem within_quotedFrom (double : Bool) (q : QuotedState) (line column : Nat) (t : Text) :
    Ensures (Within (q.size + t.length)) (quotedFrom double q line column t) := by
  induction t generalizing q line column with
  | nil => exact Ensures.error _
  | cons c r ih =>
      have hnext : ∀ q' : QuotedState, q'.size ≤ q.size + 1 → ∀ line' column',
          Ensures (Within (q.size + (c :: r).length)) (quotedFrom double q' line' column' r) := by
        intro q' hq' line' column'
        refine (ih q' line' column').mono fun p hp => hp.trans ?_
        rw [List.length_cons]
        omega
      have hfold := q.gap.length_fold_le
      have hword : ∀ a n,
          QuotedState.size ⟨a :: (q.gap.fold ++ q.out), .empty, n⟩ ≤ q.size + 1 := by
        intro a n
        simp only [QuotedState.size, List.length_cons, List.length_append, Gap.size_empty]
        omega
      have hclose : Ensures (Within (q.size + (c :: r).length))
          (.ok ((q.gap.fold ++ q.out).reverse, ⟨r, line, column + 1⟩)) := by
        apply Ensures.ok
        simp only [Within, QuotedState.size, List.length_reverse, List.length_append,
          List.length_cons]
        omega
      have hblank : QuotedState.size ⟨q.out, q.gap.blank c, q.skip⟩ ≤ q.size + 1 :=
        Nat.add_le_add_left (q.gap.size_blank_le c) _
      have hbreak : QuotedState.size ⟨q.out, q.gap.lineBreak c, q.skip⟩ ≤ q.size + 1 :=
        Nat.add_le_add_left (q.gap.size_lineBreak_le c) _
      have hescaped : QuotedState.size ⟨q.gap.fold ++ q.out, .escaped, 0⟩ ≤ q.size + 1 := by
        have hnone : Gap.size .escaped = 0 := rfl
        simp only [QuotedState.size, List.length_append, hnone]
        omega
      rw [quotedFrom]
      refine Ensures.ite (fun _ => hnext ⟨q.out, q.gap, q.skip - 1⟩ (Nat.le_succ _) _ _) ?_
      refine Ensures.ite (fun _ => Ensures.error _) ?_
      refine Ensures.ite (fun _ => hnext _ hblank _ _) ?_
      refine Ensures.ite (fun _ => hnext _ hbreak _ _) ?_
      refine Ensures.ite (fun _ => ?_) ?_
      · refine Ensures.ite (fun _ => hclose) ?_
        refine Ensures.ite (fun _ => ?_) (hnext _ (hword c 0) _ _)
        refine Ensures.ite (fun _ => hnext _ hescaped _ _) ?_
        cases escape? r with
        | none => exact Ensures.error _
        | some e => exact hnext _ (hword e.1 e.2) _ _
      · refine Ensures.ite (fun _ => ?_) (hnext _ (hword c 0) _ _)
        exact Ensures.ite (fun _ => hnext _ (hword c 1) _ _) hclose

theorem within_quoted {double : Bool} {c : Cursor} {a : Char} {r : Text} (h : c.rest = a :: r) :
    Ensures (Within r.length) (quoted double c) := by
  have hread := within_quotedFrom double .start c.line (c.column + 1) r
  rw [quoted, Cursor.skip, h]
  simpa [QuotedState.size, QuotedState.start] using hread

/-! ## Plain scalars -/

theorem within_plainFrom (flow : Bool) (indent : Nat) (out : Text) (gap : Gap) (line column : Nat)
    (t : Text) :
    Ensures (fun p => Within (out.length + gap.size + t.length) (p.text, p.stop))
      (plainFrom flow indent out gap line column t) := by
  induction t generalizing out gap line column with
  | nil =>
      apply Ensures.ok
      simp only [Within, List.length_reverse, List.length_nil]
      omega
  | cons c r ih =>
      have hnext : ∀ out' gap' line' column',
          out'.length + Gap.size gap' ≤ out.length + gap.size + 1 →
            Ensures (fun p => Within (out.length + gap.size + (c :: r).length) (p.text, p.stop))
              (plainFrom flow indent out' gap' line' column' r) := by
        intro out' gap' line' column' hle
        refine (ih out' gap' line' column').mono fun p hp => hp.trans ?_
        rw [List.length_cons]
        omega
      have hfold := gap.length_fold_le
      have hstop : Ensures
          (fun p => Within (out.length + gap.size + (c :: r).length) (p.text, p.stop))
          (.ok (⟨out.reverse, ⟨c :: r, line, column⟩, gap.hasBreak⟩ : PlainScalar)) := by
        apply Ensures.ok
        simp only [Within, List.length_reverse]
        omega
      have hblank := Nat.add_le_add_left (gap.size_blank_le c) out.length
      have hbreak := Nat.add_le_add_left (gap.size_lineBreak_le c) out.length
      have hword :
          (c :: (gap.fold ++ out)).length + Gap.size .empty ≤ out.length + gap.size + 1 := by
        simp only [List.length_cons, List.length_append, Gap.size_empty]
        omega
      rw [plainFrom]
      refine Ensures.ite (fun _ => ?_) ?_
      · exact Ensures.ite (fun _ => Ensures.error _) (hnext _ _ _ _ hblank)
      refine Ensures.ite (fun _ => hnext _ _ _ _ hbreak) ?_
      refine Ensures.ite (fun _ => hstop) ?_
      refine Ensures.ite (fun _ => hstop) ?_
      refine Ensures.ite (fun _ => hstop) ?_
      refine Ensures.ite (fun _ => Ensures.error _) ?_
      refine Ensures.ite (fun _ => hstop) ?_
      refine Ensures.ite (fun _ => hstop) ?_
      exact hnext _ _ _ _ hword

theorem within_plain (flow : Bool) (indent : Nat) (c : Cursor) :
    Ensures (fun p => Within c.rest.length (p.text, p.stop)) (plain flow indent c) := by
  have hread := within_plainFrom flow indent [] .empty c.line c.column c.rest
  rw [plain]
  simpa using hread

/-! ## Block scalars -/

namespace BlockState

/-- The number of characters that a state holds. -/
def size (s : BlockState) : Nat :=
  s.out.length + s.lead.length + s.trail.length

theorem length_join_le (s : BlockState) (folded blank : Bool) :
    (s.join folded blank).length ≤ s.size := by
  unfold join
  split_ifs with hfold htrail
  · simp only [size, hfold.2.1, List.length_cons, List.length_nil]
    omega
  · simp only [size, List.length_append]
    omega
  · simp only [size, List.length_append]
    omega

theorem length_finish_le (s : BlockState) (chomping : Chomping) :
    (s.finish chomping).length ≤ s.size := by
  cases chomping <;> simp only [finish, size, List.length_reverse, List.length_append] <;> omega

end BlockState

theorem within_blockFrom (folded : Bool) (chomping : Chomping) (least : Nat) (s : BlockState)
    (line column : Nat) (t : Text) :
    Ensures (Within (s.size + t.length)) (blockFrom folded chomping least s line column t) := by
  induction t generalizing s line column with
  | nil =>
      have hfinish := s.length_finish_le chomping
      apply Ensures.ok
      simp only [Within, List.length_nil]
      omega
  | cons c r ih =>
      have hnext : ∀ s' : BlockState, s'.size ≤ s.size + 1 → ∀ line' column',
          Ensures (Within (s.size + (c :: r).length))
            (blockFrom folded chomping least s' line' column' r) := by
        intro s' hs' line' column'
        refine (ih s' line' column').mono fun p hp => hp.trans ?_
        rw [List.length_cons]
        omega
      have hfinish := s.length_finish_le chomping
      have hjoin := s.length_join_le folded (Source.isBlank c)
      have hline : BlockState.size ⟨s.out, s.indent, s.widest, [c], s.trail, s.blankLine, false⟩ ≤
          s.size + 1 := by
        simp only [BlockState.size, List.length_cons, List.length_nil]
        omega
      have hword : BlockState.size { s with out := c :: s.out } ≤ s.size + 1 := by
        simp only [BlockState.size, List.length_cons]
        omega
      have hempty : ∀ widest,
          BlockState.size { s with trail := c :: s.trail, widest } ≤ s.size + 1 := by
        intro widest
        simp only [BlockState.size, List.length_cons]
        omega
      have hcontent : ∀ indent, BlockState.size ⟨c :: s.join folded (Source.isBlank c), indent,
          s.widest, [], [], Source.isBlank c, true⟩ ≤ s.size + 1 := by
        intro indent
        simp only [BlockState.size, List.length_cons, List.length_nil] at hjoin ⊢
        omega
      have hstop : Ensures (Within (s.size + (c :: r).length))
          (.ok (s.finish chomping, ⟨c :: r, line, column⟩)) := by
        apply Ensures.ok
        simp only [Within]
        omega
      rw [blockFrom]
      refine Ensures.ite (fun _ => ?_) ?_
      · exact Ensures.ite (fun _ => hnext _ hline _ _) (hnext _ hword _ _)
      refine Ensures.ite (fun _ => hnext s (Nat.le_succ _) _ _) ?_
      refine Ensures.ite (fun _ => Ensures.error _) ?_
      refine Ensures.ite (fun _ => hnext _ (hempty _) _ _) ?_
      exact Ensures.ite (fun _ => hnext _ (hcontent _) _ _) hstop

theorem length_blockHeader_le (t : Text) : (blockHeader t).2.length ≤ t.length := by
  unfold blockHeader
  split
  · exact Nat.le_refl _
  · split <;> (try split) <;> simp only [List.length_drop, List.length_cons] <;> omega

/-- A block scalar leaves out its first indicator, too. -/
theorem within_block {folded : Bool} {parent : Option Nat} {c : Cursor} {a : Char} {r : Text}
    (h : c.rest = a :: r) : Ensures (Within r.length) (block folded parent c) := by
  have hheader := length_blockHeader_le r
  rw [block, h]
  simp only [List.drop_succ_cons, List.drop_zero]
  generalize blockHeader r = p at hheader ⊢
  obtain ⟨header, behind⟩ := p
  dsimp only at hheader ⊢
  have hbody : ∀ n, ((behind.dropWhile Source.isBlank).drop n).length ≤ r.length := by
    intro n
    have hblank := (List.dropWhile_sublist Source.isBlank (l := behind)).length_le
    rw [List.length_drop]
    omega
  split
  · refine Ensures.mono (within_blockFrom _ _ _ _ _ _ _) ?_
    intro p hp
    exact hp.trans (Nat.zero_le _)
  · next b r' hrest =>
      have hlength : (b :: r').length ≤ r.length := by
        rw [← hrest]
        exact hbody _
      rw [List.length_cons] at hlength
      split_ifs
      · refine Ensures.mono (within_blockFrom _ _ _ _ _ _ _) ?_
        intro p hp
        simp only [Within, BlockState.size, List.length_nil] at hp ⊢
        omega
      · exact Ensures.error _

end Token

end Marginalia.Yaml

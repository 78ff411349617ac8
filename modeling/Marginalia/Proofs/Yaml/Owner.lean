import Marginalia.Proofs.Yaml.Outline

/-!
# Who owns a line

A line is owned by the last content line above it that is less indented.  A path
should lead from the key of a module down to a line along owners: each key of
the path is owned by the one before.  `Outline.OwnedPath` says so, and
`Outline.level` counts how many owners a line really has inside its module.

The walk along a path knows the indentation of the key that it searches below
and of that key's first child, and nothing of what it passes over.  So a line
that it passes over, at the margin or between the two indentations, may own the
line that it finds: this happens exactly when the line lies deeper than the path
is long.
-/

namespace Marginalia.Yaml

namespace Outline

def contentIndent? (o : Outline) (k : Nat) : Option Nat :=
  o[k]?.bind fun l => if l.isContent then some l.indent else none

/-- Line `p` owns line `k` in a module: both are content lines of the module,
`p` is the less indented one, and no content line between them is less indented
than `k`. -/
structure Owns (o : Outline) (module : LineRange) (p k : Nat) : Prop where
  start_le : module.start ≤ p
  lt : p < k
  lt_stop : k < module.stop
  shallower : ∃ a b, o.contentIndent? p = some a ∧ o.contentIndent? k = some b ∧ a < b ∧
    ∀ j c, p < j → j < k → o.contentIndent? j = some c → b ≤ c

/-- From line `p` the keys of a path lead down to a line, each owned by the one
before. -/
inductive OwnedPath (o : Outline) (module : LineRange) : Nat → List Text → Nat → Prop
  | here (p : Nat) : OwnedPath o module p [] p
  | child {p k n : Nat} {l : OutlineLine} {segment : Text} {rest : List Text}
      (howns : o.Owns module p k) (hline : o[k]? = some l) (hkey : l.key? = some segment)
      (hrest : OwnedPath o module k rest n) : OwnedPath o module p (segment :: rest) n

/-- The number of content lines that are less indented than every content line
behind them. -/
def rises : Outline → Nat
  | [] => 0
  | l :: ls =>
    if l.isContent && ls.all fun m => !m.isContent || decide (l.indent < m.indent) then rises ls + 1
    else rises ls

/-- How deep a line lies in its module: the number of its owners behind the key
line of the module, itself included. -/
def level (o : Outline) (module : LineRange) (n : Nat) : Nat :=
  rises ((o.take (n + 1)).drop (module.start + 1))

/-! ## Lines below a key -/

/-- The content lines of `ls` are indented deeper than `d`. -/
def Deeper (d : Nat) (ls : Outline) : Prop :=
  ∀ l ∈ ls, l.isContent = true → d < l.indent

/-- Below a key with indentation `d`, the lines `ls` lead along a path to the
last of them: no content line above the key of a segment is less indented than
that key. -/
inductive Descends : Nat → List Text → Outline → Prop
  | here (d : Nat) : Descends d [] []
  | child {d : Nat} {above below : Outline} {l : OutlineLine} {segment : Text} {rest : List Text}
      (hdeeper : d < l.indent) (habove : ∀ m ∈ above, m.isContent = true → l.indent ≤ m.indent)
      (hkey : l.key? = some segment) (hbelow : Descends l.indent rest below) :
      Descends d (segment :: rest) (above ++ l :: below)

theorem isContent_of_key? {l : OutlineLine} {name : Text} (h : l.key? = some name) :
    l.isContent = true := by
  unfold OutlineLine.key? at h
  unfold OutlineLine.isContent
  split at h
  · next hkind => simp [hkind]
  · cases h

theorem rises_cons_of_deeper {l : OutlineLine} {ls : Outline} (hl : l.isContent = true)
    (h : Deeper l.indent ls) : rises (l :: ls) = rises ls + 1 := by
  have hall : (ls.all fun m => !m.isContent || decide (l.indent < m.indent)) = true := by
    rw [List.all_eq_true]
    intro m hm
    cases hcontent : m.isContent with
    | false => rfl
    | true => simpa using h m hm hcontent
  rw [rises, hl, hall]
  rfl

theorem rises_cons_of_not_deeper {l : OutlineLine} {ls : Outline}
    (h : l.isContent = true → ∃ m ∈ ls, m.isContent = true ∧ m.indent ≤ l.indent) :
    rises (l :: ls) = rises ls := by
  rw [rises, if_neg]
  intro hall
  obtain ⟨hl, hall⟩ := Bool.and_eq_true_iff.mp hall
  obtain ⟨m, hm, hcontent, hle⟩ := h hl
  have hlt := List.all_eq_true.mp hall m hm
  simp only [hcontent, Bool.not_true, Bool.false_or, decide_eq_true_eq] at hlt
  omega

theorem rises_le_rises_cons (l : OutlineLine) (ls : Outline) : rises ls ≤ rises (l :: ls) := by
  rw [rises]
  split <;> omega

theorem Descends.deeper {d : Nat} {path : List Text} {ls : Outline} (h : Descends d path ls) :
    Deeper d ls := by
  induction h with
  | here d => simp [Deeper]
  | @child d above below l segment rest hdeeper habove hkey hbelow ih =>
      intro m hm hcontent
      rcases List.mem_append.mp hm with hm | hm
      · exact Nat.lt_of_lt_of_le hdeeper (habove m hm hcontent)
      · rcases List.mem_cons.mp hm with rfl | hm
        · exact hdeeper
        · exact hdeeper.trans (ih m hm hcontent)

/-- Along owners, a line lies as deep as the path is long. -/
theorem Descends.rises_eq {d : Nat} {path : List Text} {ls : Outline} (h : Descends d path ls) :
    rises ls = path.length := by
  induction h with
  | here d => rfl
  | @child d above below l segment rest hdeeper habove hkey hbelow ih =>
      have hl := isContent_of_key? hkey
      have hline : rises (l :: below) = (segment :: rest).length := by
        rw [rises_cons_of_deeper hl hbelow.deeper, ih, List.length_cons]
      clear hbelow ih
      induction above with
      | nil => exact hline
      | cons m above ihabove =>
          obtain ⟨hm, habove⟩ := List.forall_mem_cons.mp habove
          rw [List.cons_append, rises_cons_of_not_deeper fun hcontent =>
            ⟨l, by simp, hl, hm hcontent⟩]
          exact ihabove habove

/-- The key of the first segment may stand on top. -/
theorem Descends.head {d : Nat} {segment : Text} {rest : List Text} {l : OutlineLine} {ls : Outline}
    (hdeeper : d < l.indent) (hkey : l.key? = some segment) (hbelow : Descends l.indent rest ls) :
    Descends d (segment :: rest) (l :: ls) := by
  rw [← List.nil_append (l :: ls)]
  exact Descends.child hdeeper (by simp) hkey hbelow

/-- A line may be put on top that is no less indented than some line below. -/
theorem Descends.cons {d : Nat} {segment : Text} {rest : List Text} {l : OutlineLine} {ls : Outline}
    (h : Descends d (segment :: rest) ls)
    (hl : l.isContent = true → ∃ m ∈ ls, m.isContent = true ∧ m.indent ≤ l.indent) :
    Descends d (segment :: rest) (l :: ls) := by
  cases h with
  | @child _ above below k _ _ hdeeper habove hkey hbelow =>
      rw [← List.cons_append]
      refine Descends.child hdeeper ?_ hkey hbelow
      refine List.forall_mem_cons.mpr ⟨fun hcontent => ?_, habove⟩
      obtain ⟨m, hm, hmcontent, hle⟩ := hl hcontent
      refine Nat.le_trans ?_ hle
      rcases List.mem_append.mp hm with hm | hm
      · exact habove m hm hmcontent
      · rcases List.mem_cons.mp hm with rfl | hm
        · exact Nat.le_refl _
        · exact Nat.le_of_lt (hbelow.deeper m hm hmcontent)

/-! ## The walk -/

/-- What a walk along a path passes through, up to the line that it finds: the
first key of the path has indentation `c`, and the lines lie at least as deep as
the path is long, and deeper when one of them is less indented than that key. -/
structure Passed (w : Walk) (path : List Text) (ls : Outline) (c : Nat) : Prop where
  parent_lt : w.parent < c
  child : ∀ d, w.child? = some d → d = c
  deeper : w.inside = true → Deeper w.parent ls
  first : ∃ m ∈ ls, m.isContent = true ∧ m.indent = c
  le_rises : path.length ≤ rises ls
  lt_rises : (∃ m ∈ ls, m.isContent = true ∧ m.indent < c) → path.length < rises ls
  descends : rises ls = path.length → Descends w.parent path ls

namespace Passed

variable {w w' : Walk} {segment next : Text} {rest : List Text} {l : OutlineLine} {ls : Outline}
  {c : Nat}

/-- Lines that are no content do not count. -/
theorem skip (h : Passed w (segment :: rest) ls c) (hl : l.isContent = false) :
    Passed w (segment :: rest) (l :: ls) c := by
  have hrises : rises (l :: ls) = rises ls := rises_cons_of_not_deeper (by simp [hl])
  have hmem : ∀ {p : OutlineLine → Prop},
      (∃ m ∈ l :: ls, m.isContent = true ∧ p m) ↔ ∃ m ∈ ls, m.isContent = true ∧ p m := by
    simp [hl]
  refine ⟨h.parent_lt, h.child, ?_, hmem.mpr h.first, ?_, ?_, ?_⟩
  · intro hinside m hm hcontent
    rcases List.mem_cons.mp hm with rfl | hm
    · rw [hl] at hcontent
      cases hcontent
    · exact h.deeper hinside m hm hcontent
  · rw [hrises]
    exact h.le_rises
  · rw [hrises, hmem]
    exact h.lt_rises
  · rw [hrises]
    intro heq
    exact (h.descends heq).cons (by simp [hl])

/-- A content line that the walk passes over. -/
theorem pass (h : Passed w' (segment :: rest) ls c) (hl : l.isContent = true)
    (hparent : w'.parent = w.parent) (hchild : ∀ d, w.child? = some d → d = c)
    (hinside : w.inside = true → w'.inside = true ∧ w.parent < l.indent) :
    Passed w (segment :: rest) (l :: ls) c := by
  obtain ⟨m, hm, hcontent, hindent⟩ := h.first
  have hless : (∃ m ∈ l :: ls, m.isContent = true ∧ m.indent < c) →
      (segment :: rest).length < rises (l :: ls) := by
    rintro ⟨m', hm', hcontent', hlt⟩
    by_cases hbelow : ∃ m ∈ ls, m.isContent = true ∧ m.indent < c
    · exact Nat.lt_of_lt_of_le (h.lt_rises hbelow) (rises_le_rises_cons l ls)
    · rcases List.mem_cons.mp hm' with rfl | hm'
      · have hdeeper : Deeper m'.indent ls := by
          intro m hm hcontent
          by_contra hge
          exact hbelow ⟨m, hm, hcontent, by omega⟩
        rw [rises_cons_of_deeper hl hdeeper]
        exact Nat.lt_succ_of_le h.le_rises
      · exact absurd ⟨m', hm', hcontent', hlt⟩ hbelow
  refine ⟨hparent ▸ h.parent_lt, hchild, ?_, ⟨m, List.mem_cons_of_mem _ hm, hcontent, hindent⟩,
    h.le_rises.trans (rises_le_rises_cons l ls), hless, ?_⟩
  · intro hin
    obtain ⟨hin', hlt⟩ := hinside hin
    exact List.forall_mem_cons.mpr ⟨fun _ => hlt, hparent ▸ h.deeper hin'⟩
  · intro heq
    have hle : c ≤ l.indent := by
      by_contra hlt
      have := hless ⟨l, List.mem_cons_self .., hl, by omega⟩
      omega
    have hbelow : l.isContent = true → ∃ m ∈ ls, m.isContent = true ∧ m.indent ≤ l.indent :=
      fun _ => ⟨m, hm, hcontent, by omega⟩
    rw [rises_cons_of_not_deeper hbelow] at heq
    rw [← hparent]
    exact (h.descends heq).cons hbelow

theorem last (hkey : l.key? = some segment) (hlt : w.parent < l.indent)
    (hchild : ∀ d, w.child? = some d → d = l.indent) : Passed w [segment] [l] l.indent := by
  have hl := isContent_of_key? hkey
  have hnone : Deeper l.indent [] := by simp [Deeper]
  have hrises : rises [l] = 1 := rises_cons_of_deeper hl hnone
  refine ⟨hlt, hchild, ?_, ⟨l, List.mem_singleton_self l, hl, rfl⟩, ?_, ?_, ?_⟩
  · simpa [Deeper] using fun _ _ => hlt
  · rw [hrises]
    exact Nat.le_refl _
  · simp
  · intro _
    exact Descends.head hlt hkey (Descends.here _)

/-- A key of the path above the rest of it. -/
theorem descend (h : Passed ⟨true, l.indent, none⟩ (next :: rest) ls c)
    (hkey : l.key? = some segment) (hlt : w.parent < l.indent)
    (hchild : ∀ d, w.child? = some d → d = l.indent) :
    Passed w (segment :: next :: rest) (l :: ls) l.indent := by
  have hl := isContent_of_key? hkey
  have hdeeper : Deeper l.indent ls := h.deeper rfl
  have hrises : rises (l :: ls) = rises ls + 1 := rises_cons_of_deeper hl hdeeper
  refine ⟨hlt, hchild, ?_, ⟨l, List.mem_cons_self .., hl, rfl⟩, ?_, ?_, ?_⟩
  · intro _
    exact List.forall_mem_cons.mpr
      ⟨fun _ => hlt, fun m hm hcontent => hlt.trans (hdeeper m hm hcontent)⟩
  · rw [hrises]
    exact Nat.succ_le_succ h.le_rises
  · rintro ⟨m, hm, hcontent, hless⟩
    rcases List.mem_cons.mp hm with rfl | hm
    · exact absurd hless (Nat.lt_irrefl _)
    · exact absurd hless (Nat.not_lt_of_gt (hdeeper m hm hcontent))
  · intro heq
    rw [hrises, List.length_cons] at heq
    exact Descends.head hlt hkey (h.descends (by omega))

end Passed

theorem passed_of_walk {index n : Nat} {w : Walk} {segment : Text} {deeper : List Text}
    {ls : Outline} (hchild : ∀ d, w.child? = some d → w.parent < d)
    (h : walk index w segment deeper ls = some n) :
    ∃ passed below c, ls = passed ++ below ∧ n + 1 = index + passed.length ∧
      Passed w (segment :: deeper) passed c := by
  induction ls generalizing index w segment deeper with
  | nil => simp [walk] at h
  | cons l ls ih =>
      -- the lines below were passed through, and this one is put on top
      have cons : ∀ {w' : Walk} {s : Text} {d : List Text},
          (∀ c, w'.child? = some c → w'.parent < c) → walk (index + 1) w' s d ls = some n →
            (∀ passed c, Passed w' (s :: d) passed c →
              ∃ c', Passed w (segment :: deeper) (l :: passed) c') →
              ∃ passed below c, l :: ls = passed ++ below ∧ n + 1 = index + passed.length ∧
                Passed w (segment :: deeper) passed c := by
        intro w' s d hchild' hwalk hput
        obtain ⟨passed, below, c, rfl, hn, hpassed⟩ := ih hchild' hwalk
        obtain ⟨c', hput⟩ := hput passed c hpassed
        refine ⟨l :: passed, below, c', rfl, ?_, hput⟩
        rw [hn, List.length_cons]
        omega
      simp only [walk] at h
      split at h
      · next hcontent =>
          exact cons hchild h fun passed c hpassed => ⟨c, hpassed.skip (by simpa using hcontent)⟩
      · next hcontent =>
          have hl : l.isContent = true := by simpa using hcontent
          split at h
          · split at h
            · cases h
            · next hoff =>
                exact cons hchild h fun passed c hpassed =>
                  ⟨c, hpassed.pass hl rfl hpassed.child fun hin => absurd hin hoff⟩
          · next hlt =>
              have hlt : w.parent < l.indent := Nat.lt_of_not_le hlt
              split at h
              · have hchild' : ∀ c, some (w.child?.getD l.indent) = some c → w.parent < c := by
                  rintro _ ⟨⟩
                  cases hw : w.child? with
                  | none => exact hlt
                  | some d => exact hchild d hw
                refine cons hchild' h fun passed c hpassed =>
                  ⟨c, hpassed.pass hl rfl (fun d hd => ?_) fun hin => ⟨hin, hlt⟩⟩
                exact hpassed.child d (by simp [hd])
              · next hmatch =>
                  obtain ⟨hindent, hkey⟩ := not_or.mp hmatch
                  have hkey : l.key? = some segment := not_not.mp hkey
                  have hc : ∀ d, w.child? = some d → d = l.indent := by
                    intro d hd
                    rw [not_not.mp hindent, hd, Option.getD_some]
                  cases deeper with
                  | nil =>
                      simp only [Option.some.injEq] at h
                      subst h
                      exact ⟨[l], ls, l.indent, rfl, rfl, Passed.last hkey hlt hc⟩
                  | cons next rest =>
                      exact cons (by simp) h fun passed c hpassed =>
                        ⟨l.indent, hpassed.descend hkey hlt hc⟩

/-! ## Owners by index -/

section Bridge

variable {o ls below : Outline} {module : LineRange} {name : Text} {p k n d : Nat}
  {path : List Text} {l : OutlineLine}

theorem contentIndent?_eq_some_iff :
    o.contentIndent? k = some d ↔ ∃ l, o[k]? = some l ∧ l.isContent = true ∧ l.indent = d := by
  unfold contentIndent?
  cases o[k]? with
  | none => simp
  | some l => simp

theorem contentIndent?_of_key? {segment : Text} (hl : o[k]? = some l)
    (hkey : l.key? = some segment) : o.contentIndent? k = some l.indent :=
  contentIndent?_eq_some_iff.mpr ⟨l, hl, isContent_of_key? hkey, rfl⟩

theorem OwnedPath.le (h : o.OwnedPath module p path n) : p ≤ n := by
  induction h with
  | here p => exact Nat.le_refl _
  | child howns _ _ _ ih => exact (Nat.le_of_lt howns.lt).trans ih

theorem getElem?_of_drop_eq (hbehind : o.drop (p + 1) = ls ++ below) (hp : p < k)
    (hk : k ≤ p + ls.length) : o[k]? = ls[k - (p + 1)]? := by
  rw [← List.getElem?_append_left (by omega : k - (p + 1) < ls.length), ← hbehind,
    List.getElem?_drop]
  congr 1
  omega

theorem ownedPath_of_descends (h : Descends d path ls) (hp : o.contentIndent? p = some d)
    (hbehind : o.drop (p + 1) = ls ++ below) (hstart : module.start ≤ p)
    (hstop : p + ls.length < module.stop) : o.OwnedPath module p path (p + ls.length) := by
  induction h generalizing p with
  | here d => exact OwnedPath.here p
  | @child d above behind l segment rest hdeeper habove hkey hbelow ih =>
      obtain ⟨k, hk⟩ : ∃ k, k = p + 1 + above.length := ⟨_, rfl⟩
      have hlength : (above ++ l :: behind).length = above.length + 1 + behind.length := by
        rw [List.length_append, List.length_cons]
        omega
      have hl : o[k]? = some l := by
        rw [getElem?_of_drop_eq hbehind (by omega) (by omega)]
        simp [hk]
      have howns : o.Owns module p k := by
        refine ⟨hstart, by omega, by omega, d, l.indent, hp, contentIndent?_of_key? hl hkey,
          hdeeper, ?_⟩
        intro j c hpj hjk hj
        obtain ⟨m, hm, hcontent, rfl⟩ := contentIndent?_eq_some_iff.mp hj
        rw [getElem?_of_drop_eq hbehind hpj (by omega),
          List.getElem?_append_left (by omega)] at hm
        exact habove m (List.mem_of_getElem? hm) hcontent
      have hbehind' : o.drop (k + 1) = behind ++ below := by
        have hsplit : (above ++ l :: behind) ++ below = (above ++ [l]) ++ (behind ++ below) := by
          simp
        have hdrop := congrArg (List.drop (above ++ [l]).length) (hbehind.trans hsplit)
        rw [List.drop_left, List.drop_drop] at hdrop
        rw [← hdrop, List.length_append, List.length_singleton]
        congr 1
        omega
      have hend : p + (above ++ l :: behind).length = k + behind.length := by omega
      rw [hend]
      exact OwnedPath.child howns hl hkey
        (ih (contentIndent?_of_key? hl hkey) hbehind' (by omega) (by omega))

theorem descends_of_ownedPath (h : o.OwnedPath module p path n) (hp : o.contentIndent? p = some d)
    (hbehind : o.drop (p + 1) = ls ++ below) (hn : n = p + ls.length) : Descends d path ls := by
  induction h generalizing d ls with
  | here p =>
      obtain rfl : ls = [] := List.eq_nil_of_length_eq_zero (by omega)
      exact Descends.here d
  | @child p k n l segment rest howns hl hkey hrest ih =>
      obtain ⟨a, b, ha, hb, hlt, hbetween⟩ := howns.shallower
      have hpk := howns.lt
      have hkn := hrest.le
      obtain rfl : a = d := Option.some.inj (ha.symm.trans hp)
      obtain rfl : b = l.indent := Option.some.inj (hb.symm.trans (contentIndent?_of_key? hl hkey))
      have hl' : ls[k - (p + 1)]? = some l := by
        rw [← getElem?_of_drop_eq hbehind hpk (by omega), hl]
      obtain ⟨hindex, hget⟩ := List.getElem?_eq_some_iff.mp hl'
      have hsplit : ls.take (k - (p + 1)) ++ l :: ls.drop (k - p) = ls := by
        have hdrop : ls.drop (k - (p + 1)) = l :: ls.drop (k - p) := by
          rw [List.drop_eq_getElem_cons hindex, hget, (by omega : k - (p + 1) + 1 = k - p)]
        rw [← hdrop, List.take_append_drop]
      rw [← hsplit]
      refine Descends.child hlt ?_ hkey (ih (contentIndent?_of_key? hl hkey) ?_ ?_)
      · intro m hm hcontent
        obtain ⟨j, hj, rfl⟩ := List.getElem_of_mem hm
        rw [List.length_take] at hj
        rw [List.getElem_take] at hcontent ⊢
        refine hbetween (p + 1 + j) _ (by omega) (by omega) (contentIndent?_eq_some_iff.mpr
          ⟨_, ?_, hcontent, rfl⟩)
        rw [getElem?_of_drop_eq hbehind (by omega) (by omega), Nat.add_sub_cancel_left]
        exact List.getElem?_eq_getElem _
      · have hdrop := congrArg (List.drop (k - p)) hbehind
        rw [List.drop_drop, List.drop_append_of_le_length (by omega)] at hdrop
        rw [← hdrop]
        congr 1
        omega
      · rw [List.length_drop]
        omega

theorem exists_getElem?_start {name : Text} (h : o.module name = .ok module) :
    ∃ l, o[module.start]? = some l ∧ l.isContent = true := by
  obtain ⟨l, hl, hkey⟩ := exists_key?_of_moduleFrom? (module_eq_ok_iff.mp h)
  exact ⟨l, hl, isContent_of_key? hkey⟩

end Bridge

/-- A line that was found by a path lies at least as deep as the path is long,
and the path leads to it along owners exactly when it lies no deeper. -/
theorem ownedPath_iff_level_eq {o : Outline} {name : Text} {module : LineRange} {path : List Text}
    {n : Nat}
    (hmodule : o.module name = .ok module)
    (hpath : path ≠ [])
    (hfind : o.findPath module path = .ok n) :
    path.length ≤ o.level module n ∧
      (o.OwnedPath module module.start path n ↔ o.level module n = path.length) := by
  obtain ⟨hrange, hstop⟩ := module_bounds hmodule
  obtain ⟨head, hhead, hcontent⟩ := exists_getElem?_start hmodule
  have hp : o.contentIndent? module.start = some head.indent :=
    contentIndent?_eq_some_iff.mpr ⟨head, hhead, hcontent, rfl⟩
  obtain ⟨segment, deeper, rfl⟩ := List.exists_cons_of_ne_nil hpath
  have hwalk : walk (module.start + 1) ⟨false, head.indent, none⟩ segment deeper
      ((o.take module.stop).drop (module.start + 1)) = some n := by
    simp only [findPath, hhead, Option.map_some, Option.getD_some] at hfind
    split at hfind
    · next line hline => rw [hline, Except.ok.inj hfind]
    · cases hfind
  obtain ⟨ls, below, c, hls, hn, hpassed⟩ := passed_of_walk (by simp) hwalk
  have hbounds := walk_bounds hwalk
  rw [List.length_drop, List.length_take] at hbounds
  have hn : n = module.start + ls.length := by omega
  have hbehind : o.drop (module.start + 1) = ls ++ (below ++ o.drop module.stop) := by
    rw [← List.append_assoc, ← hls, ← List.drop_append_of_le_length, List.take_append_drop]
    rw [List.length_take]
    omega
  have hlevel : o.level module n = rises ls := by
    rw [level, List.drop_take, hbehind, (by omega : n + 1 - (module.start + 1) = ls.length),
      List.take_left]
  rw [hlevel]
  refine ⟨hpassed.le_rises, fun howned => ?_, fun hrises => ?_⟩
  · exact (descends_of_ownedPath howned hp hbehind hn).rises_eq
  · rw [hn]
    exact ownedPath_of_descends (hpassed.descends hrises) hp hbehind (Nat.le_refl _) (by omega)

/-- Below a key that stands between a list and a comment, the path leads along
owners. -/
theorem ownedPath_iff_level_eq_nested :
    let o := ofText "m:\n  l:\n    - k: 2\n  a:\n # c\n    k: 1\n".toList
    let path := ["a".toList, "k".toList]
    o.module "m".toList = .ok ⟨0, 6⟩ ∧ path ≠ [] ∧ o.findPath ⟨0, 6⟩ path = .ok 5 ∧
      o.OwnedPath ⟨0, 6⟩ 0 path 5 := by
  have hmodule : (ofText "m:\n  l:\n    - k: 2\n  a:\n # c\n    k: 1\n".toList).module "m".toList =
      .ok ⟨0, 6⟩ := by decide +kernel
  have hpath : ["a".toList, "k".toList] ≠ [] := List.cons_ne_nil _ _
  have hfind : (ofText "m:\n  l:\n    - k: 2\n  a:\n # c\n    k: 1\n".toList).findPath ⟨0, 6⟩
      ["a".toList, "k".toList] = .ok 5 := by decide +kernel
  exact ⟨hmodule, hpath, hfind,
    (ownedPath_iff_level_eq hmodule hpath hfind).2.mpr (by decide +kernel)⟩

/-- An attribute of an entry at the margin is found as a child of the module. -/
theorem not_ownedPath_below_dash :
    let o := ofText "m:\n- id: a\n  k: 1\n".toList
    o.module "m".toList = .ok ⟨0, 3⟩ ∧ o.findPath ⟨0, 3⟩ ["k".toList] = .ok 2 ∧
      ¬ o.OwnedPath ⟨0, 3⟩ 0 ["k".toList] 2 := by
  have hdash : (ofText "m:\n- id: a\n  k: 1\n".toList).contentIndent? 1 = some 0 := by
    decide +kernel
  have hline : (ofText "m:\n- id: a\n  k: 1\n".toList).contentIndent? 2 = some 2 := by
    decide +kernel
  refine ⟨by decide +kernel, by decide +kernel, fun howned => ?_⟩
  cases howned with
  | child howns _ _ hrest =>
      cases hrest
      obtain ⟨a, b, -, hb, -, hbetween⟩ := howns.shallower
      have hle := hbetween 1 0 (by omega) (by omega) hdash
      rw [hline] at hb
      have := Option.some.inj hb
      omega

end Outline

end Marginalia.Yaml

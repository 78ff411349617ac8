import Marginalia.Proofs.Yaml.Owner

/-!
# Nested fields are found

In a module that is nested as usual, the lines of one owner stand at one
indentation and have different keys.  The walk along a path keeps only the first
key that it meets below the right parent, the indentation of that parent and the
indentation of its first child; in such a module nothing else can come between,
so every chain of owners is found by its keys.
-/

namespace Marginalia.Yaml.Outline

def keyAt? (o : Outline) (k : Nat) : Option Text :=
  o[k]?.bind (·.key?)

/-- The content lines of one owner have one indentation, and no key stands twice
below it. -/
structure WellNested (o : Outline) (module : LineRange) : Prop where
  indent_eq : ∀ {p k k'}, o.Owns module p k → o.Owns module p k' →
    o.contentIndent? k = o.contentIndent? k'
  key_inj : ∀ {p k k' name}, o.Owns module p k → o.Owns module p k' →
    o.keyAt? k = some name → o.keyAt? k' = some name → k = k'

section Decidable

variable {o : Outline} {module : LineRange} {p k k' : Nat}

theorem owns_iff : o.Owns module p k ↔ module.start ≤ p ∧ p < k ∧ k < module.stop ∧
    ∃ a ∈ o.contentIndent? p, ∃ b ∈ o.contentIndent? k, a < b ∧
      ∀ j < k, p < j → ∀ c ∈ o.contentIndent? j, b ≤ c := by
  constructor
  · rintro ⟨hstart, hlt, hstop, a, b, ha, hb, hab, hbetween⟩
    exact ⟨hstart, hlt, hstop, a, ha, b, hb, hab, fun j hjk hpj c hc => hbetween j c hpj hjk hc⟩
  · rintro ⟨hstart, hlt, hstop, a, ha, b, hb, hab, hbetween⟩
    exact ⟨hstart, hlt, hstop, a, b, ha, hb, hab, fun j c hpj hjk hc => hbetween j hjk hpj c hc⟩

instance : Decidable (o.Owns module p k) :=
  decidable_of_iff _ owns_iff.symm

/-- Two lines may have one owner. -/
def MayStandBeside (o : Outline) (k k' : Nat) : Prop :=
  o.contentIndent? k = o.contentIndent? k' ∧
    ((o.keyAt? k).isSome = true → o.keyAt? k = o.keyAt? k' → k = k')

instance : Decidable (o.MayStandBeside k k') :=
  inferInstanceAs (Decidable (_ ∧ _))

theorem wellNested_iff : o.WellNested module ↔
    ∀ p < module.stop, ∀ k < module.stop, o.Owns module p k →
      ∀ k' < module.stop, o.Owns module p k' → o.MayStandBeside k k' := by
  constructor
  · intro h p _ k _ hk k' _ hk'
    refine ⟨h.indent_eq hk hk', fun hsome hsame => ?_⟩
    obtain ⟨name, hname⟩ := Option.isSome_iff_exists.mp hsome
    exact h.key_inj hk hk' hname (hsame.symm.trans hname)
  · intro h
    have hbeside : ∀ {p k k'}, o.Owns module p k → o.Owns module p k' → o.MayStandBeside k k' :=
      fun hk hk' => h _ (hk.lt.trans hk.lt_stop) _ hk.lt_stop hk _ hk'.lt_stop hk'
    refine ⟨fun hk hk' => (hbeside hk hk').1, fun hk hk' hname hname' => ?_⟩
    exact (hbeside hk hk').2 (by rw [hname]; rfl) (hname.trans hname'.symm)

instance : Decidable (o.WellNested module) :=
  decidable_of_iff _ wellNested_iff.symm

end Decidable

/-! ## The walk down to a child -/

section Walk

variable {index : Nat} {w : Walk} {segment next : Text} {deeper rest : List Text}
  {above ls : Outline} {l m : OutlineLine}

theorem getD_child? {d : Nat} (hchild : ∀ c ∈ w.child?, c = d) : w.child?.getD d = d := by
  cases hw : w.child? with
  | none => rfl
  | some c => exact hchild c hw

theorem walk_cons_of_not_isContent (hm : m.isContent = false) :
    walk index w segment deeper (m :: ls) = walk (index + 1) w segment deeper ls := by
  simp only [walk, hm, Bool.not_false, if_true]

/-- A deeper line that is no child with the key is passed over, and tells where
the children are when it is the first one. -/
theorem walk_cons_of_pass (hm : m.isContent = true) (hparent : w.parent < m.indent)
    (hpass : m.indent = w.child?.getD m.indent → m.key? ≠ some segment) :
    walk index w segment deeper (m :: ls) =
      walk (index + 1) { w with child? := some (w.child?.getD m.indent) } segment deeper ls := by
  have hdeep : ¬m.indent ≤ w.parent := Nat.not_le.mpr hparent
  have hmiss : m.indent ≠ w.child?.getD m.indent ∨ m.key? ≠ some segment :=
    Decidable.or_iff_not_imp_left.mpr fun hsame => hpass (not_not.mp hsame)
  simp only [walk, hm, Bool.not_true, Bool.false_eq_true, if_false, hdeep, hmiss, if_true]

theorem walk_cons_of_last (hkey : l.key? = some segment) (hparent : w.parent < l.indent)
    (hchild : ∀ c ∈ w.child?, c = l.indent) : walk index w segment [] (l :: ls) = some index := by
  have hdeep : ¬l.indent ≤ w.parent := Nat.not_le.mpr hparent
  simp [walk, isContent_of_key? hkey, hdeep, getD_child? hchild, hkey]

theorem walk_cons_of_next (hkey : l.key? = some segment) (hparent : w.parent < l.indent)
    (hchild : ∀ c ∈ w.child?, c = l.indent) :
    walk index w segment (next :: rest) (l :: ls) =
      walk (index + 1) ⟨true, l.indent, none⟩ next rest ls := by
  have hdeep : ¬l.indent ≤ w.parent := Nat.not_le.mpr hparent
  simp [walk, isContent_of_key? hkey, hdeep, getD_child? hchild, hkey]

/-- The lines `above` stand between a key and its child `l`: the first content
line among them is indented like the child, and each one is deeper than the
child or beside it with another key. -/
structure StandAbove (above : Outline) (l : OutlineLine) (segment : Text) : Prop where
  first : ∀ m ∈ above.find? (·.isContent), m.indent = l.indent
  le : ∀ m ∈ above, m.isContent = true → l.indent ≤ m.indent
  key?_ne : ∀ m ∈ above, m.isContent = true → m.indent = l.indent → m.key? ≠ some segment

/-- The walk below a key passes over what stands above the child.  What it knows
of the indentation of the children is right, once it knows it. -/
theorem exists_walk_append (index : Nat) (deeper : List Text) (ls : Outline)
    (hparent : w.parent < l.indent)
    (hchild : ∀ c ∈ w.child?, c = l.indent)
    (hfirst : w.child? = none → ∀ m ∈ above.find? (·.isContent), m.indent = l.indent)
    (hle : ∀ m ∈ above, m.isContent = true → l.indent ≤ m.indent)
    (hother : ∀ m ∈ above, m.isContent = true → m.indent = l.indent → m.key? ≠ some segment) :
    ∃ w' : Walk, w'.parent = w.parent ∧ (∀ c ∈ w'.child?, c = l.indent) ∧
      walk index w segment deeper (above ++ l :: ls) =
        walk (index + above.length) w' segment deeper (l :: ls) := by
  induction above generalizing index w with
  | nil => exact ⟨w, rfl, hchild, rfl⟩
  | cons m above ih =>
      obtain ⟨hm, hle⟩ := List.forall_mem_cons.mp hle
      obtain ⟨hmother, hother⟩ := List.forall_mem_cons.mp hother
      have hindex : index + (m :: above).length = index + 1 + above.length := by
        rw [List.length_cons, Nat.add_assoc, Nat.add_comm 1]
      rw [hindex, List.cons_append]
      cases hcontent : m.isContent with
      | false =>
          rw [walk_cons_of_not_isContent hcontent]
          refine ih (index + 1) hparent hchild (fun hnone => ?_) hle hother
          simpa [hcontent] using hfirst hnone
      | true =>
          have hknown : w.child?.getD m.indent = l.indent := by
            cases hw : w.child? with
            | none => exact hfirst hw m (by simp [hcontent])
            | some c => exact hchild c hw
          rw [walk_cons_of_pass hcontent (hparent.trans_le (hm hcontent)) fun hsame =>
            hmother hcontent (hsame.trans hknown), hknown]
          exact ih (w := { w with child? := some l.indent }) (index + 1) hparent (by simp) (by simp)
            hle hother

end Walk

/-! ## Along owners -/

variable {o : Outline} {module : LineRange} {p k n : Nat} {l m : OutlineLine} {segment : Text}
  {path : List Text}

/-- The lines of a module behind line `p`. -/
def behind (o : Outline) (module : LineRange) (p : Nat) : Outline :=
  (o.take module.stop).drop (p + 1)

def between (o : Outline) (p k : Nat) : Outline :=
  (o.take k).drop (p + 1)

theorem length_between (hl : o[k]? = some l) :
    (between o p k).length = k - (p + 1) := by
  have hlength := lt_length_of_getElem? hl
  rw [between, List.length_drop, List.length_take, Nat.min_eq_left (Nat.le_of_lt hlength)]

theorem behind_eq (hpk : p < k) (hstop : k < module.stop) (hl : o[k]? = some l) :
    behind o module p = between o p k ++ l :: behind o module k := by
  have hlength := lt_length_of_getElem? hl
  have hk : k < (o.take module.stop).length := by
    rw [List.length_take]
    omega
  have hget : (o.take module.stop)[k] = l := by
    have hsome : (o.take module.stop)[k]? = some l := by
      rw [List.getElem?_take, if_pos hstop, hl]
    exact (List.getElem?_eq_some_iff.mp hsome).2
  have htake : (o.take module.stop).take k = o.take k := by
    rw [List.take_take, Nat.min_eq_left (Nat.le_of_lt hstop)]
  have hsplit := List.take_append_drop k (o.take module.stop)
  rw [htake, List.drop_eq_getElem_cons hk, hget] at hsplit
  have hlow : p + 1 ≤ (o.take k).length := by
    rw [List.length_take]
    omega
  rw [behind, between, behind, ← List.drop_append_of_le_length hlow, hsplit]

/-- A line between two others has an index between theirs. -/
theorem getElem?_between {j : Nat} (hm : (between o p k)[j]? = some m) :
    p + 1 + j < k ∧ o[p + 1 + j]? = some m := by
  rw [between, List.getElem?_drop, List.getElem?_take] at hm
  split at hm
  · next hlt => exact ⟨hlt, hm⟩
  · cases hm

/-- A child has no owner between itself and its own, so what stands there is no
less indented. -/
theorem Owns.le_of_mem_between (h : o.Owns module p k) (hl : o[k]? = some l)
    (hkey : l.key? = some segment) (hm : m ∈ between o p k) (hcontent : m.isContent = true) :
    l.indent ≤ m.indent := by
  obtain ⟨j, hj⟩ := List.mem_iff_getElem?.mp hm
  obtain ⟨hlt, hj⟩ := getElem?_between hj
  obtain ⟨a, b, -, hb, -, hbetween⟩ := h.shallower
  rw [contentIndent?_of_key? hl hkey, Option.some.injEq] at hb
  rw [hb]
  exact hbetween _ _ (by omega) hlt (contentIndent?_eq_some_iff.mpr ⟨m, hj, hcontent, rfl⟩)

/-- A content line between an owner and its child has that owner, too, when no
line between the owner and it is less indented. -/
theorem Owns.of_between (h : o.Owns module p k) (hl : o[k]? = some l)
    (hkey : l.key? = some segment) {j : Nat} (hj : (between o p k)[j]? = some m)
    (hcontent : m.isContent = true)
    (hle : ∀ i m', i < j → (between o p k)[i]? = some m' → m'.isContent = true →
      m.indent ≤ m'.indent) : o.Owns module p (p + 1 + j) := by
  obtain ⟨hlt, hm⟩ := getElem?_between hj
  have hkm := h.le_of_mem_between hl hkey (List.mem_of_getElem? hj) hcontent
  obtain ⟨a, b, ha, hb, hab, -⟩ := h.shallower
  rw [contentIndent?_of_key? hl hkey, Option.some.injEq] at hb
  refine ⟨h.start_le, by omega, hlt.trans h.lt_stop, a, m.indent, ha,
    contentIndent?_eq_some_iff.mpr ⟨m, hm, hcontent, rfl⟩, by omega, ?_⟩
  intro i c hpi hij hi
  obtain ⟨m', hm', hcontent', rfl⟩ := contentIndent?_eq_some_iff.mp hi
  have hindex : p + 1 + (i - (p + 1)) = i := by omega
  refine hle (i - (p + 1)) m' (by omega) ?_ hcontent'
  rw [between, List.getElem?_drop, List.getElem?_take, hindex, if_pos (by omega), hm']

/-- In a well-nested module nothing between an owner and its child can be taken
for the child. -/
theorem WellNested.standAbove (hnested : o.WellNested module) (h : o.Owns module p k)
    (hl : o[k]? = some l) (hkey : l.key? = some segment) :
    StandAbove (between o p k) l segment := by
  refine ⟨?_, fun m => h.le_of_mem_between hl hkey, ?_⟩
  · intro m hm
    obtain ⟨hcontent, front, back, hsplit, hfront⟩ := List.find?_eq_some_iff_append.mp hm
    have hj : (between o p k)[front.length]? = some m := by simp [hsplit]
    have howns := h.of_between hl hkey hj hcontent fun i m' hi hm' hcontent' => by
      rw [hsplit, List.getElem?_append_left hi] at hm'
      have hnone := hfront m' (List.mem_of_getElem? hm')
      simp [hcontent'] at hnone
    have hsame := hnested.indent_eq howns h
    rw [contentIndent?_of_key? hl hkey] at hsame
    obtain ⟨m', hm', -, hindent⟩ := contentIndent?_eq_some_iff.mp hsame
    rw [(getElem?_between hj).2, Option.some.injEq] at hm'
    rw [hm', hindent]
  · intro m hm hcontent hindent hname
    obtain ⟨j, hj⟩ := List.mem_iff_getElem?.mp hm
    have howns := h.of_between hl hkey hj hcontent fun i m' _ hm' hcontent' => by
      rw [hindent]
      exact h.le_of_mem_between hl hkey (List.mem_of_getElem? hm') hcontent'
    obtain ⟨hlt, hj⟩ := getElem?_between hj
    have hsame := hnested.key_inj howns h
      (show o.keyAt? (p + 1 + j) = some segment by simp [keyAt?, hj, hname])
      (by simp [keyAt?, hl, hkey])
    omega

theorem exists_walk_to_child (hnested : o.WellNested module) (h : o.Owns module p k)
    (hl : o[k]? = some l) (hkey : l.key? = some segment) {d : Nat}
    (hp : o.contentIndent? p = some d) (inside : Bool) (deeper : List Text) :
    ∃ w : Walk, w.parent < l.indent ∧ (∀ c ∈ w.child?, c = l.indent) ∧
      walk (p + 1) ⟨inside, d, none⟩ segment deeper (behind o module p) =
        walk k w segment deeper (l :: behind o module k) := by
  obtain ⟨a, b, ha, hb, hab, -⟩ := h.shallower
  rw [contentIndent?_of_key? hl hkey, Option.some.injEq] at hb
  rw [hp, Option.some.injEq] at ha
  have hparent : d < l.indent := by omega
  have habove := hnested.standAbove h hl hkey
  obtain ⟨w, hw, hchild, hwalk⟩ := exists_walk_append (w := ⟨inside, d, none⟩) (p + 1) deeper
    (behind o module k) hparent (by simp) (fun _ => habove.first) habove.le habove.key?_ne
  refine ⟨w, by rwa [hw], hchild, ?_⟩
  have hindex : p + 1 + (between o p k).length = k := by
    have := h.lt
    rw [length_between hl]
    omega
  rw [behind_eq h.lt h.lt_stop hl, hwalk, hindex]

/-- Along owners the walk comes to the end of a path. -/
theorem walk_of_ownedPath (hnested : o.WellNested module) {deeper : List Text} {inside : Bool}
    {d : Nat} (h : o.OwnedPath module p (segment :: deeper) n) (hp : o.contentIndent? p = some d) :
    walk (p + 1) ⟨inside, d, none⟩ segment deeper (behind o module p) = some n := by
  induction deeper generalizing p segment inside d with
  | nil =>
      cases h with
      | @child _ k _ l _ _ howns hl hkey hrest =>
          cases hrest
          obtain ⟨w, hparent, hchild, hwalk⟩ :=
            exists_walk_to_child hnested howns hl hkey hp inside _
          rw [hwalk, walk_cons_of_last hkey hparent hchild]
  | cons next rest ih =>
      cases h with
      | @child _ k _ l _ _ howns hl hkey hrest =>
          obtain ⟨w, hparent, hchild, hwalk⟩ :=
            exists_walk_to_child hnested howns hl hkey hp inside _
          rw [hwalk, walk_cons_of_next hkey hparent hchild]
          exact ih hrest (contentIndent?_of_key? hl hkey)

/-- In a well-nested module the keys of a chain of owners lead to its last
line. -/
theorem findPath_of_ownedPath {name : Text} (hmodule : o.module name = .ok module)
    (hnested : o.WellNested module) (hpath : path ≠ [])
    (howned : o.OwnedPath module module.start path n) : o.findPath module path = .ok n := by
  obtain ⟨head, hhead, hcontent⟩ := exists_getElem?_start hmodule
  have hp : o.contentIndent? module.start = some head.indent :=
    contentIndent?_eq_some_iff.mpr ⟨head, hhead, hcontent, rfl⟩
  obtain ⟨segment, deeper, rfl⟩ := List.exists_cons_of_ne_nil hpath
  have hwalk : walk (module.start + 1) ⟨false, head.indent, none⟩ segment deeper
      (behind o module module.start) = some n := walk_of_ownedPath hnested howned hp
  rw [behind] at hwalk
  simp only [findPath, hhead, Option.map_some, Option.getD_some, hwalk]

/-- The key of the path stands also below another parent and inside an item, and
an item at the margin comes last. -/
theorem findPath_of_ownedPath_repeated :
    let o := ofText
      ("m:\n  a:\n\n    k: 1\n # c\n  b:\n    - k: 2\n    # c\n".toList ++
        "  c:\n    l:\n      - k\n    k: 3\n- x\n".toList)
    let path := ["c".toList, "k".toList]
    o.module "m".toList = .ok ⟨0, 13⟩ ∧ o.WellNested ⟨0, 13⟩ ∧ path ≠ [] ∧
      o.OwnedPath ⟨0, 13⟩ 0 path 11 ∧ o.findPath ⟨0, 13⟩ path = .ok 11 := by
  intro o path
  have hmodule : o.module "m".toList = .ok ⟨0, 13⟩ := by decide +kernel
  have hnested : o.WellNested ⟨0, 13⟩ := by decide +kernel
  have howned : o.OwnedPath ⟨0, 13⟩ 0 path 11 :=
    .child (l := ⟨⟨8, 47, "  c:".toList, .lf⟩, 2, .key ['c'] 3⟩) (k := 8) (by decide +kernel)
      (by decide +kernel) rfl
      (.child (l := ⟨⟨11, 69, "    k: 3".toList, .lf⟩, 4, .key ['k'] 5⟩) (by decide +kernel)
        (by decide +kernel) rfl (.here 11))
  exact ⟨hmodule, hnested, by simp [path], howned,
    findPath_of_ownedPath hmodule hnested (by simp [path]) howned⟩

end Marginalia.Yaml.Outline

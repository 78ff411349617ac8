import Marginalia.Proofs.Text.Lines
import Marginalia.Yaml.Patch
import Mathlib.Data.List.TakeWhile

/-!
# Where the outline looks

Everything that is located in a document lies in the lines of one module: the
line of a path, and the body under it.  A module begins at a line with its name,
and a path ends at a line with a key; the bounds, line by line, follow from
where these lines stand.  The lines of the outline are made from the lines of
the text.
-/

namespace Marginalia.Yaml

namespace Outline

theorem length_ofText (t : Text) : (ofText t).length = t.lines.length := by
  simp [ofText]

theorem getElem?_ofText {t : Text} {k : Nat} {l : OutlineLine} (h : (ofText t)[k]? = some l) :
    t.lines[k]? = some l.line ∧ l = .ofLine l.line := by
  rw [ofText, List.getElem?_map, Option.map_eq_some_iff] at h
  obtain ⟨line, hline, rfl⟩ := h
  exact ⟨hline, rfl⟩

theorem exists_getElem?_of_lt {o : Outline} {k : Nat} (h : k < o.length) :
    ∃ l, o[k]? = some l :=
  ⟨o[k], List.getElem?_eq_getElem h⟩

theorem lt_length_of_getElem? {o : Outline} {k : Nat} {l : OutlineLine} (h : o[k]? = some l) :
    k < o.length :=
  (List.getElem?_eq_some_iff.mp h).1

/-! ## Modules and paths -/

theorem toNextModule_le (o : Outline) : o.toNextModule ≤ o.length :=
  (List.takeWhile_sublist _).length_le

/-- A module begins at the line with its name and reaches to the next one. -/
theorem exists_eq_append_of_moduleFrom? {name : Text} {index : Nat} {o : Outline}
    {range : LineRange} (h : moduleFrom? name index o = some range) :
    ∃ above l below, o = above ++ l :: below ∧ l.key? = some name ∧
      range = ⟨index + above.length, index + above.length + 1 + toNextModule below⟩ := by
  induction o generalizing index with
  | nil => simp [moduleFrom?] at h
  | cons l ls ih =>
      simp only [moduleFrom?] at h
      split at h
      · next hopens =>
          obtain rfl := Option.some.inj h
          exact ⟨[], l, ls, rfl, hopens.2, rfl⟩
      · obtain ⟨above, m, below, rfl, hkey, rfl⟩ := ih h
        refine ⟨l :: above, m, below, rfl, hkey, ?_⟩
        rw [List.length_cons, Nat.add_assoc index, Nat.add_comm 1]

theorem moduleFrom?_bounds {name : Text} {index : Nat} {o : Outline} {range : LineRange}
    (h : moduleFrom? name index o = some range) :
    index ≤ range.start ∧ range.start < range.stop ∧ range.stop ≤ index + o.length := by
  obtain ⟨above, l, below, rfl, -, rfl⟩ := exists_eq_append_of_moduleFrom? h
  have hnext := toNextModule_le below
  simp only [List.length_append, List.length_cons]
  omega

/-- The first line of a module has the key that the module is named by. -/
theorem exists_key?_of_moduleFrom? {name : Text} {index : Nat} {o : Outline} {range : LineRange}
    (h : moduleFrom? name index o = some range) :
    ∃ l, o[range.start - index]? = some l ∧ l.key? = some name := by
  obtain ⟨above, l, below, rfl, hkey, rfl⟩ := exists_eq_append_of_moduleFrom? h
  exact ⟨l, by simp, hkey⟩

theorem module_eq_ok_iff {o : Outline} {name : Text} {range : LineRange} :
    o.module name = .ok range ↔ moduleFrom? name 0 o = some range := by
  unfold Outline.module
  cases moduleFrom? name 0 o <;> simp

theorem module_bounds {o : Outline} {name : Text} {range : LineRange}
    (h : o.module name = .ok range) : range.start < range.stop ∧ range.stop ≤ o.length := by
  obtain ⟨-, hrange, hstop⟩ := moduleFrom?_bounds (module_eq_ok_iff.mp h)
  exact ⟨hrange, by omega⟩

theorem exists_eq_append_of_walk {index n : Nat} {w : Walk} {segment : Text} {deeper : List Text}
    {o : Outline} (h : walk index w segment deeper o = some n) :
    ∃ above l below name, o = above ++ l :: below ∧ l.key? = some name ∧
      n = index + above.length := by
  induction o generalizing index w segment deeper with
  | nil => simp [walk] at h
  | cons l ls ih =>
      -- each branch ends the search at this line or goes on below it
      have further : ∀ {w' : Walk} {s : Text} {d : List Text},
          walk (index + 1) w' s d ls = some n → ∃ above m below name,
            l :: ls = above ++ m :: below ∧ m.key? = some name ∧ n = index + above.length := by
        intro w' s d hwalk
        obtain ⟨above, m, below, name, rfl, hkey, rfl⟩ := ih hwalk
        refine ⟨l :: above, m, below, name, rfl, hkey, ?_⟩
        rw [List.length_cons, Nat.add_assoc index, Nat.add_comm 1]
      simp only [walk] at h
      split at h
      · exact further h
      · split at h
        · split at h
          · cases h
          · exact further h
        · split at h
          · exact further h
          · next hhere =>
              cases deeper with
              | nil =>
                  obtain rfl := Option.some.inj h
                  exact ⟨[], l, ls, segment, rfl, not_not.mp (not_or.mp hhere).2, rfl⟩
              | cons next rest => exact further h

theorem walk_bounds {index n : Nat} {w : Walk} {segment : Text} {deeper : List Text}
    {o : Outline} (h : walk index w segment deeper o = some n) :
    index ≤ n ∧ n < index + o.length := by
  obtain ⟨above, l, below, name, rfl, -, rfl⟩ := exists_eq_append_of_walk h
  simp only [List.length_append, List.length_cons]
  omega

theorem exists_key?_of_walk {index n : Nat} {w : Walk} {segment : Text} {deeper : List Text}
    {o : Outline} (h : walk index w segment deeper o = some n) :
    ∃ l name, o[n - index]? = some l ∧ l.key? = some name := by
  obtain ⟨above, l, below, name, rfl, hkey, rfl⟩ := exists_eq_append_of_walk h
  exact ⟨l, name, by simp, hkey⟩

theorem findPath_bounds {o : Outline} {range : LineRange} {path : List Text} {n : Nat}
    (hrange : range.start < range.stop) (h : o.findPath range path = .ok n) :
    range.start ≤ n ∧ n < range.stop := by
  cases path with
  | nil =>
      obtain rfl : range.start = n := by simpa [findPath] using h
      exact ⟨Nat.le_refl _, hrange⟩
  | cons segment deeper =>
      simp only [findPath] at h
      split at h
      · next line hwalk =>
          obtain rfl := Except.ok.inj h
          obtain ⟨hstart, hstop⟩ := walk_bounds hwalk
          simp only [List.length_drop, List.length_take] at hstop
          omega
      · cases h

theorem locate_eq_ok_iff {o : Outline} {name dotted : Text} {range : LineRange} {n : Nat} :
    o.locate name dotted = .ok (range, n) ↔
      o.module name = .ok range ∧ o.findPath range (segments dotted) = .ok n := by
  unfold locate
  cases hmodule : o.module name with
  | error miss => simp [bind, Except.bind]
  | ok found =>
      cases hpath : o.findPath found (segments dotted) with
      | error miss =>
          simp only [bind, Except.bind, hpath, reduceCtorEq, Except.ok.injEq, false_iff, not_and]
          rintro rfl
          simp [hpath]
      | ok line =>
          simp only [bind, Except.bind, pure, Except.pure, hpath, Except.ok.injEq, Prod.mk.injEq]
          constructor
          · rintro ⟨rfl, rfl⟩
            exact ⟨rfl, hpath⟩
          · rintro ⟨rfl, hline⟩
            rw [hpath] at hline
            exact ⟨rfl, Except.ok.inj hline⟩

/-- A located line lies in the module, and the module in the document. -/
theorem locate_bounds {o : Outline} {name dotted : Text} {range : LineRange} {n : Nat}
    (h : o.locate name dotted = .ok (range, n)) :
    range.start ≤ n ∧ n < range.stop ∧ range.stop ≤ o.length := by
  obtain ⟨hmodule, hpath⟩ := locate_eq_ok_iff.mp h
  obtain ⟨hrange, hstop⟩ := module_bounds hmodule
  obtain ⟨hstart, hline⟩ := findPath_bounds hrange hpath
  exact ⟨hstart, hline, hstop⟩

/-! ## Bodies -/

theorem extent_le (inside : OutlineLine → Bool) (o : Outline) : extent inside o ≤ o.length := by
  induction o with
  | nil => simp [extent]
  | cons l ls ih =>
      simp only [extent, List.length_cons]
      split
      · split <;> omega
      · split <;> omega

/-- The lines before the first content line below a key. -/
theorem not_isContent_of_lt_trivia {region : Outline} {k : Nat} {l : OutlineLine}
    (hk : k < (region.takeWhile fun l => !l.isContent).length) (hl : region[k]? = some l) :
    l.isContent = false := by
  have hregion : region = (region.takeWhile fun l => !l.isContent) ++
      region.dropWhile fun l => !l.isContent := List.takeWhile_append_dropWhile.symm
  rw [hregion, List.getElem?_append_left hk] at hl
  have hmem := List.mem_takeWhile_imp (List.mem_of_getElem? hl)
  simpa using hmem

/-- A body is empty, directly behind its key, or it opens at the first content
line below the key and ends before `stop`. -/
theorem body_cases (o : Outline) (key stop : Nat) (kind : BodyKind) :
    (o.body key stop kind).lines = ⟨key + 1, key + 1⟩ ∨
      (key < (o.body key stop kind).lines.start ∧
        (o.body key stop kind).lines.start < (o.body key stop kind).lines.stop ∧
        (o.body key stop kind).lines.stop ≤ stop ∧
        (o.body key stop kind).lines.stop ≤ o.length ∧
        ∀ k l, key < k → k < (o.body key stop kind).lines.start → o[k]? = some l →
          l.isContent = false) := by
  unfold body
  dsimp only
  generalize hregion : (o.take stop).drop (key + 1) = region
  generalize htrivia : (region.takeWhile fun l => !l.isContent).length = trivia
  have hlength : region.length = min stop o.length - (key + 1) := by
    rw [← hregion, List.length_drop, List.length_take]
  split
  · exact Or.inl rfl
  · next head rest hdrop =>
      have hrest := congrArg List.length hdrop
      rw [List.length_drop, List.length_cons] at hrest
      split
      · have hextent := extent_le (staysInBody kind head.indent) rest
        refine Or.inr ⟨?_, ?_, ?_, ?_, ?_⟩
        · dsimp only
          omega
        · dsimp only
          omega
        · dsimp only
          omega
        · dsimp only
          omega
        · intro k l hkey hk hl
          dsimp only at hk
          have hindex : key + 1 + (k - (key + 1)) = k := by omega
          have hl' : region[k - (key + 1)]? = some l := by
            rw [← hregion, List.getElem?_drop, List.getElem?_take, hindex, if_pos (by omega), hl]
          exact not_isContent_of_lt_trivia (by omega) hl'
      · exact Or.inl rfl

theorem exists_isContent_of_body (o : Outline) (key stop : Nat) (kind : BodyKind)
    (h : (o.body key stop kind).lines.start < (o.body key stop kind).lines.stop) :
    ∃ l, o[(o.body key stop kind).lines.start]? = some l ∧ l.isContent = true := by
  revert h
  unfold body
  dsimp only
  generalize hregion : (o.take stop).drop (key + 1) = region
  split
  · exact fun h => absurd h (Nat.lt_irrefl _)
  · next head rest hdrop =>
      split
      · intro _
        have hindex : region[(region.takeWhile fun l => !l.isContent).length]? = some head := by
          rw [← List.head?_drop, hdrop]
          rfl
        have hfirst : region.find? (·.isContent) = some head := by
          have hcut : ((region.takeWhile fun l => !l.isContent) ++
              region.dropWhile fun l => !l.isContent).drop
                (region.takeWhile fun l => !l.isContent).length =
                  region.dropWhile fun l => !l.isContent := List.drop_left
          rw [List.takeWhile_append_dropWhile, hdrop] at hcut
          rw [List.find?_eq_head?_dropWhile_not, ← hcut]
          rfl
        refine ⟨head, ?_, List.find?_some hfirst⟩
        rw [← hregion, List.getElem?_drop, List.getElem?_take, hregion] at hindex
        split at hindex
        · exact hindex
        · cases hindex
      · exact fun h => absurd h (Nat.lt_irrefl _)

end Outline

/-! ## Key lines -/

namespace KeyLine

theorem isContent_of_ofLine? {l : OutlineLine} {k : KeyLine} (h : ofLine? l = some k) :
    l.isContent = true := by
  unfold ofLine? at h
  split at h
  · next name colon hkind => simp [OutlineLine.isContent, hkind]
  · cases h

theorem content_ne_nil_of_ofLine? {l : Line} {k : KeyLine}
    (h : ofLine? (.ofLine l) = some k) : l.content ≠ [] := by
  intro hnil
  have hkind : (OutlineLine.ofLine l).kind = .blank := by
    simp [OutlineLine.ofLine, LineKind.ofBody, hnil, Text.isBlank]
  simp [ofLine?, hkind] at h

end KeyLine

namespace Patch

theorem keyLine_eq_ok_iff {o : Outline} {index : Nat} {module path : Text} {l : OutlineLine}
    {k : KeyLine} :
    keyLine o index module path = .ok (l, k) ↔ o[index]? = some l ∧ KeyLine.ofLine? l = some k := by
  unfold keyLine
  cases hline : o[index]? with
  | none => simp
  | some found =>
      cases hparts : KeyLine.ofLine? found with
      | none =>
          simp only [hparts, reduceCtorEq, Option.some.injEq, false_iff, not_and]
          rintro rfl
          simp [hparts]
      | some parts =>
          simp only [hparts, Except.ok.injEq, Prod.mk.injEq, Option.some.injEq]
          constructor
          · rintro ⟨rfl, rfl⟩
            exact ⟨rfl, hparts⟩
          · rintro ⟨rfl, hl⟩
            rw [hparts] at hl
            exact ⟨rfl, Option.some.inj hl⟩

end Patch

end Marginalia.Yaml

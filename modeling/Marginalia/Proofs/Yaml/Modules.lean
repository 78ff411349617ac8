import Marginalia.Proofs.Yaml.Located

/-!
# Modules cover a document

Every line from the first one that opens a module on belongs to one module.
`Outline.modules` lists the modules by the lines that open them, each ending
where the next one opens, and `Outline.module` seeks one module and counts the
lines from its own first line on.  Both agree, because what stands between two
openings is what the count passes over.
-/

namespace Marginalia.Yaml.Outline

variable {l : OutlineLine} {ls above rest : Outline} {name : Text} {index : Nat}

/-! ## Openings -/

theorem exists_key?_of_opensModule (h : l.opensModule = true) : ∃ name, l.key? = some name := by
  simp only [OutlineLine.opensModule, Bool.and_eq_true] at h
  exact Option.isSome_iff_exists.mp h.2

theorem openingsFrom_of_opensModule (hopens : l.opensModule = true) (hkey : l.key? = some name) :
    openingsFrom index (l :: ls) = (name, index) :: openingsFrom (index + 1) ls := by
  simp [openingsFrom, hopens, hkey]

theorem openingsFrom_of_not_opensModule (h : l.opensModule = false) :
    openingsFrom index (l :: ls) = openingsFrom (index + 1) ls := by
  simp [openingsFrom, h]

/-- The next line that opens a module stands behind the lines that are passed
over, or there is none and they are all. -/
theorem head?_openingsFrom (ls : Outline) (index : Nat) :
    ((openingsFrom index ls).head?.map (·.2)).getD (index + ls.length) =
      index + ls.toNextModule := by
  induction ls generalizing index with
  | nil => rfl
  | cons l ls ih =>
      cases hopens : l.opensModule with
      | true =>
          obtain ⟨name, hkey⟩ := exists_key?_of_opensModule hopens
          simp [openingsFrom_of_opensModule hopens hkey, toNextModule, hopens]
      | false =>
          have hrest := ih (index + 1)
          have hnext : toNextModule (l :: ls) = 1 + toNextModule ls := by
            simp [toNextModule, hopens, Nat.add_comm]
          have hlength : index + (l :: ls).length = index + 1 + ls.length := by
            rw [List.length_cons, Nat.add_assoc, Nat.add_comm 1]
          rw [openingsFrom_of_not_opensModule hopens, hlength, hrest, hnext, Nat.add_assoc]

theorem opensModule_eq_false_of_lt {k : Nat} (hk : k < ls.toNextModule) (hl : ls[k]? = some l) :
    l.opensModule = false := by
  have hcut : ls = (ls.takeWhile fun l => !l.opensModule) ++
      ls.dropWhile fun l => !l.opensModule := List.takeWhile_append_dropWhile.symm
  rw [hcut, List.getElem?_append_left hk] at hl
  simpa using List.mem_takeWhile_imp (List.mem_of_getElem? hl)

/-! ## The modules of the last lines -/

def modulesBelow (above rest : Outline) : List (Text × LineRange) :=
  closedAt (above ++ rest).length (openingsFrom above.length rest)

theorem modules_eq (o : Outline) : o.modules = modulesBelow [] o := rfl

theorem modulesBelow_nil : modulesBelow above [] = [] := rfl

theorem modulesBelow_of_not_opensModule (h : l.opensModule = false) :
    modulesBelow above (l :: ls) = modulesBelow (above ++ [l]) ls := by
  simp [modulesBelow, openingsFrom_of_not_opensModule h]

/-- A line that opens a module takes the lines that are passed over below it. -/
theorem modulesBelow_of_opensModule (hopens : l.opensModule = true) (hkey : l.key? = some name) :
    modulesBelow above (l :: ls) =
      (name, ⟨above.length, above.length + 1 + ls.toNextModule⟩) ::
        modulesBelow (above ++ [l]) ls := by
  have hstop : (above ++ l :: ls).length = above.length + 1 + ls.length := by
    rw [List.length_append, List.length_cons, Nat.add_assoc, Nat.add_comm 1]
  rw [modulesBelow, openingsFrom_of_opensModule hopens hkey, closedAt, hstop, head?_openingsFrom]
  simp [modulesBelow, Nat.add_assoc, Nat.add_comm 1]

/-- The first of the modules below others opens where the passing over ends. -/
theorem head?_modulesBelow (above rest : Outline) :
    ((modulesBelow above rest).head?.map (·.2.start)).getD (above.length + rest.length) =
      above.length + rest.toNextModule := by
  have hhead : (modulesBelow above rest).head?.map (·.2.start) =
      (openingsFrom above.length rest).head?.map (·.2) := by
    rw [modulesBelow]
    cases openingsFrom above.length rest <;> rfl
  rw [hhead, head?_openingsFrom]

/-! ## Covering -/

/-- Modules that cover an outline: the first opens at the first line that opens
a module, each goes on to where the next one opens and the last one to the end,
and in each the line that opens it is its first and its only such line. -/
structure CoveredBy (o : Outline) (ms : List (Text × LineRange)) : Prop where
  first : ms.head?.map (·.2.start) = o.findIdx? OutlineLine.opensModule
  contiguous : ms.IsChain fun m m' => m.2.stop = m'.2.start
  last : ∀ m ∈ ms.getLast?, m.2.stop = o.length
  opens : ∀ m ∈ ms, ∃ l, o[m.2.start]? = some l ∧ l.opensModule = true ∧ l.key? = some m.1
  alone : ∀ m ∈ ms, m.2.start < m.2.stop ∧
    ∀ i l, m.2.start < i → i < m.2.stop → o[i]? = some l → l.opensModule = false

theorem findIdx?_opensModule (above rest : Outline) :
    (rest.findIdx? OutlineLine.opensModule).map (above.length + ·) =
      (modulesBelow above rest).head?.map (·.2.start) := by
  induction rest generalizing above with
  | nil => rfl
  | cons l ls ih =>
      cases hopens : l.opensModule with
      | true =>
          obtain ⟨name, hkey⟩ := exists_key?_of_opensModule hopens
          simp [modulesBelow_of_opensModule hopens hkey, List.findIdx?_cons, hopens]
      | false =>
          have hrest := ih (above ++ [l])
          rw [modulesBelow_of_not_opensModule hopens, ← hrest, List.findIdx?_cons, hopens]
          simp [Function.comp_def, Nat.add_assoc, Nat.add_comm 1]

theorem isChain_modulesBelow (above rest : Outline) :
    (modulesBelow above rest).IsChain (fun m m' => m.2.stop = m'.2.start) ∧
      ∀ m ∈ (modulesBelow above rest).getLast?, m.2.stop = (above ++ rest).length := by
  induction rest generalizing above with
  | nil => exact ⟨.nil, by simp [modulesBelow_nil]⟩
  | cons l ls ih =>
      obtain ⟨hchain, hlast⟩ := ih (above ++ [l])
      have hlength : (above ++ [l] ++ ls).length = (above ++ l :: ls).length := by simp
      rw [hlength] at hlast
      cases hopens : l.opensModule with
      | false =>
          rw [modulesBelow_of_not_opensModule hopens]
          exact ⟨hchain, hlast⟩
      | true =>
          obtain ⟨name, hkey⟩ := exists_key?_of_opensModule hopens
          have hnext := head?_modulesBelow (above ++ [l]) ls
          rw [modulesBelow_of_opensModule hopens hkey]
          cases hbelow : modulesBelow (above ++ [l]) ls with
          | nil =>
              -- Without a module below, all lines below are passed over.
              rw [hbelow] at hnext
              refine ⟨.singleton _, ?_⟩
              rintro m ⟨⟩
              simp only [List.head?_nil, Option.map_none, List.length_append, List.length_cons,
                List.length_nil, Nat.zero_add, Option.getD_none, Nat.add_left_cancel_iff,
                List.getLast_singleton] at hnext ⊢
              omega
          | cons m ms =>
              rw [hbelow] at hnext hchain hlast
              refine ⟨.cons_cons ?_ hchain, ?_⟩
              · simp only [List.head?_cons, Option.map_some, List.length_append, List.length_cons,
                  List.length_nil, Nat.zero_add, Option.getD_some] at hnext ⊢
                omega
              · rwa [List.getLast?_cons_cons]

theorem opens_modulesBelow {m : Text × LineRange} (hm : m ∈ modulesBelow above rest) :
    (∃ l, (above ++ rest)[m.2.start]? = some l ∧ l.opensModule = true ∧ l.key? = some m.1) ∧
      m.2.start < m.2.stop ∧ ∀ i l, m.2.start < i → i < m.2.stop →
        (above ++ rest)[i]? = some l → l.opensModule = false := by
  induction rest generalizing above with
  | nil => simp [modulesBelow_nil] at hm
  | cons l ls ih =>
      have hall : above ++ l :: ls = above ++ [l] ++ ls := by simp
      cases hopens : l.opensModule with
      | false =>
          rw [modulesBelow_of_not_opensModule hopens] at hm
          rw [hall]
          exact ih hm
      | true =>
          obtain ⟨name, hkey⟩ := exists_key?_of_opensModule hopens
          rw [modulesBelow_of_opensModule hopens hkey, List.mem_cons] at hm
          rcases hm with rfl | hm
          · refine ⟨⟨l, ?_, hopens, hkey⟩, by dsimp only; omega, ?_⟩
            · rw [List.getElem?_append_right (Nat.le_refl _), Nat.sub_self]
              rfl
            · intro i l' hlow hhigh hl'
              have hlength : (above ++ [l]).length = above.length + 1 := by simp
              dsimp only at hlow hhigh
              rw [hall, List.getElem?_append_right (by omega)] at hl'
              exact opensModule_eq_false_of_lt (by omega) hl'
          · rw [hall]
            exact ih hm

theorem coveredBy_modules (o : Outline) : o.CoveredBy o.modules := by
  have hfirst := findIdx?_opensModule [] o
  have hid : (fun k => ([] : Outline).length + k) = id := funext Nat.zero_add
  rw [hid, Option.map_id_fun, id] at hfirst
  rw [modules_eq]
  constructor
  · exact hfirst.symm
  · exact (isChain_modulesBelow [] o).1
  · exact (isChain_modulesBelow [] o).2
  · exact fun m hm => (opens_modulesBelow hm).1
  · exact fun m hm => (opens_modulesBelow hm).2

/-! ## Both ways to a module -/

theorem moduleFrom?_eq_find? (name : Text) (above rest : Outline) :
    moduleFrom? name above.length rest =
      ((modulesBelow above rest).find? fun m => m.1 = name).map (·.2) := by
  induction rest generalizing above with
  | nil => rfl
  | cons l ls ih =>
      have hrest := ih (above ++ [l])
      rw [List.length_append, List.length_singleton] at hrest
      rw [moduleFrom?, hrest]
      cases hopens : l.opensModule with
      | false => simp [modulesBelow_of_not_opensModule hopens]
      | true =>
          obtain ⟨key, hkey⟩ := exists_key?_of_opensModule hopens
          by_cases hname : key = name <;>
            simp [modulesBelow_of_opensModule hopens hkey, hkey, hname]

/-- The modules of a document cover it from the first line that opens a module
to the last line, and the module of a name is the first one with that name among
them. -/
theorem coveredBy_modules_and_module_eq (t : Text) :
    (ofText t).CoveredBy (ofText t).modules ∧ ∀ name, (ofText t).module name =
      match (ofText t).modules.find? fun m => m.1 = name with
      | some (_, range) => .ok range
      | none => .error (.moduleNotFound name) := by
  refine ⟨coveredBy_modules (ofText t), fun name => ?_⟩
  have hfrom := moduleFrom?_eq_find? name [] (ofText t)
  rw [List.length_nil, ← modules_eq] at hfrom
  rw [module, hfrom]
  cases (ofText t).modules.find? fun m => m.1 = name <;> rfl

end Marginalia.Yaml.Outline

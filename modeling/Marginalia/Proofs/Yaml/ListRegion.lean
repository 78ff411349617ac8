import Marginalia.Proofs.Yaml.Outline

/-!
# The items under a key

A list under a key is found line by line: below blank lines and comments its
first item opens it, at the indentation of the key or deeper, and it goes on
through the last content line that is deeper than that item or another item
beside it.  `ItemsUnder` says so of three stretches of lines, and the body that
the outline finds is the one such stretch.
-/

namespace Marginalia.Yaml

/-- A content line that belongs to items with a given indentation. -/
def OutlineLine.InItems (indent : Nat) (l : OutlineLine) : Prop :=
  indent < l.indent ∨ l.indent = indent ∧ l.isItem = true

/-- The lines `old` are the items under a key with indentation `key`, below the
lines `lead` and above the lines `below`; without items the new ones are
indented by two more than the key. -/
inductive ItemsUnder (key : Nat) : (lead old below : Outline) → (indent : Nat) → Prop
  | none {below : Outline}
      (hbelow : ∀ l ∈ below.find? (·.isContent), ¬(l.isItem = true ∧ key ≤ l.indent)) :
      ItemsUnder key [] [] below (key + 2)
  | some {lead rest below : Outline} {head : OutlineLine}
      (hlead : ∀ l ∈ lead, l.isContent = false)
      (hitem : head.isItem = true) (hindent : key ≤ head.indent)
      (hinside : ∀ l ∈ rest, l.isContent = true → l.InItems head.indent)
      (hlast : ∀ l ∈ (head :: rest).getLast?, l.isContent = true)
      (hbelow : ∀ l ∈ below.find? (·.isContent), ¬l.InItems head.indent) :
      ItemsUnder key lead (head :: rest) below head.indent

/-- Without items no lines stand above the first one. -/
theorem ItemsUnder.lead_eq_nil {key indent : Nat} {lead below : Outline}
    (h : ItemsUnder key lead [] below indent) : lead = [] := by
  cases h with
  | none => rfl

namespace OutlineLine

theorem isContent_of_isItem {l : OutlineLine} (h : l.isItem = true) : l.isContent = true := by
  unfold isItem at h
  split at h
  · next hkind => simp [isContent, hkind]
  · cases h

theorem inItems_iff {indent : Nat} {l : OutlineLine} :
    l.InItems indent ↔ Outline.staysInBody .sequence indent l = true := by
  simp [InItems, Outline.staysInBody]

end OutlineLine

namespace Outline

/-! ## How far a body reaches -/

variable {inside : OutlineLine → Bool}

/-- Nothing is taken when the first content line is outside. -/
theorem extent_eq_zero_iff {o : Outline} :
    extent inside o = 0 ↔ ∀ l ∈ o.find? (·.isContent), inside l = false := by
  induction o with
  | nil => simp [extent]
  | cons l ls ih =>
      cases hl : l.isContent with
      | false => simpa [extent, hl] using ih
      | true => simp [extent, hl]

/-- All lines down to the last content line inside are taken. -/
theorem extent_append {front back : Outline}
    (hinside : ∀ l ∈ front, l.isContent = true → inside l = true)
    (hlast : ∀ l ∈ front.getLast?, l.isContent = true) (hback : extent inside back = 0) :
    extent inside (front ++ back) = front.length := by
  induction front with
  | nil => exact hback
  | cons l front ih =>
      have hl := hinside l (List.mem_cons_self ..)
      by_cases hfront : front = []
      · subst hfront
        have hcontent : l.isContent = true := hlast l (by simp)
        simp [extent, hcontent, hl hcontent, hback]
      · rw [List.getLast?_cons_of_ne_nil hfront] at hlast
        have hmore := ih (fun l' hl' => hinside l' (List.mem_cons_of_mem l hl')) hlast
        have hlength : front.length ≠ 0 := by simpa using hfront
        rw [List.cons_append, extent, hmore]
        cases hcontent : l.isContent with
        | false => simp [hlength]
        | true => simp [hl hcontent]

/-- What is taken is inside, and it ends with a content line; what follows is
outside. -/
theorem extent_spec (inside : OutlineLine → Bool) (o : Outline) :
    ∃ front back, o = front ++ back ∧ front.length = extent inside o ∧
      (∀ l ∈ front, l.isContent = true → inside l = true) ∧
      (∀ l ∈ front.getLast?, l.isContent = true) ∧ extent inside back = 0 := by
  induction o with
  | nil => exact ⟨[], [], rfl, rfl, by simp, by simp, rfl⟩
  | cons l ls ih =>
      obtain ⟨front, back, rfl, hlength, hinside, hlast, hback⟩ := ih
      by_cases hzero : extent inside (l :: (front ++ back)) = 0
      · exact ⟨[], _, rfl, hzero.symm, by simp, by simp, hzero⟩
      · have htaken : extent inside (l :: (front ++ back)) = front.length + 1 ∧
            (l.isContent = true → inside l = true) ∧ (front = [] → l.isContent = true) := by
          rw [extent, ← hlength] at hzero ⊢
          cases hcontent : l.isContent with
          | false =>
              simp only [hcontent, Bool.not_false, if_true] at hzero ⊢
              have hfront : front.length ≠ 0 := fun h => hzero (if_pos h)
              exact ⟨if_neg hfront, by simp, fun h => absurd (congrArg List.length h) hfront⟩
          | true =>
              simp only [hcontent, Bool.not_true, Bool.false_eq_true, if_false] at hzero ⊢
              have hl : inside l = true := by
                by_contra hl
                exact hzero (if_neg hl)
              exact ⟨if_pos hl, fun _ => hl, by simp⟩
        obtain ⟨hextent, hl, hnil⟩ := htaken
        refine ⟨l :: front, back, rfl, hextent.symm, List.forall_mem_cons.mpr ⟨hl, hinside⟩, ?_,
          hback⟩
        by_cases hfront : front = []
        · subst hfront
          simpa using hnil rfl
        · rwa [List.getLast?_cons_of_ne_nil hfront]

/-! ## The body of a list -/

theorem opensBody_sequence_iff {key : Nat} {l : OutlineLine} :
    opensBody .sequence key l = true ↔ l.isItem = true ∧ key ≤ l.indent := by
  simp [opensBody]

section Body

variable {o : Outline} {i stop : Nat} {key : OutlineLine} (hkey : o[i]? = some key)

include hkey

/-- Without an item as the first content line below a key there is no body. -/
theorem body_of_not_opens {region : Outline} (hregion : (o.take stop).drop (i + 1) = region)
    (h : ∀ l ∈ region.find? (·.isContent), ¬(l.isItem = true ∧ key.indent ≤ l.indent)) :
    o.body i stop .sequence = ⟨⟨i + 1, i + 1⟩, key.indent + 2⟩ := by
  have hdropWhile : region.drop (region.takeWhile fun l => !l.isContent).length =
      region.dropWhile fun l => !l.isContent := by
    have hdrop : ∀ front back : Outline, (front ++ back).drop front.length = back :=
      fun _ _ => List.drop_left
    have hcut := hdrop (region.takeWhile fun l => !l.isContent)
      (region.dropWhile fun l => !l.isContent)
    rwa [List.takeWhile_append_dropWhile] at hcut
  rw [List.find?_eq_head?_dropWhile_not] at h
  unfold body
  simp only [hkey, Option.map_some, Option.getD_some, hregion, hdropWhile]
  split
  · rfl
  · next head rest htail =>
      rw [if_neg fun hopens => h head (by rw [htail]; rfl) (opensBody_sequence_iff.mp hopens)]

/-- An item as the first content line below a key opens the body. -/
theorem body_of_opens {lead rest : Outline} {head : OutlineLine}
    (hregion : (o.take stop).drop (i + 1) = lead ++ head :: rest)
    (hlead : ∀ l ∈ lead, l.isContent = false)
    (hopens : head.isItem = true ∧ key.indent ≤ head.indent) :
    o.body i stop .sequence =
      ⟨⟨i + 1 + lead.length, i + 1 + lead.length + 1 +
        extent (staysInBody .sequence head.indent) rest⟩, head.indent⟩ := by
  have htrivia : (lead ++ head :: rest).takeWhile (fun l => !l.isContent) = lead := by
    rw [List.takeWhile_append_of_pos (by simpa using hlead)]
    simp [OutlineLine.isContent_of_isItem hopens.1]
  unfold body
  simp only [hkey, Option.map_some, Option.getD_some, hregion, htrivia, List.drop_left]
  rw [if_pos (opensBody_sequence_iff.mpr hopens)]

theorem body_of_itemsUnder {indent : Nat} {lead old below : Outline}
    (hregion : (o.take stop).drop (i + 1) = lead ++ (old ++ below))
    (h : ItemsUnder key.indent lead old below indent) :
    o.body i stop .sequence =
      ⟨⟨i + 1 + lead.length, i + 1 + lead.length + old.length⟩, indent⟩ := by
  cases h with
  | none hbelow => exact body_of_not_opens hkey hregion hbelow
  | @some _ rest _ head hlead hitem hindent hinside hlast hbelow =>
      have hbelow' : extent (staysInBody .sequence head.indent) below = 0 := by
        rw [extent_eq_zero_iff]
        intro l hl
        rw [Bool.eq_false_iff]
        exact fun h => hbelow l hl (OutlineLine.inItems_iff.mpr h)
      have hlast' : ∀ l ∈ rest.getLast?, l.isContent = true := by
        by_cases hrest : rest = []
        · simp [hrest]
        · rwa [List.getLast?_cons_of_ne_nil hrest] at hlast
      have hextent : extent (staysInBody .sequence head.indent) (rest ++ below) = rest.length :=
        extent_append (fun l hl hcontent => OutlineLine.inItems_iff.mp (hinside l hl hcontent))
          hlast' hbelow'
      have hregion' : (o.take stop).drop (i + 1) = lead ++ head :: (rest ++ below) := hregion
      have hlength : i + 1 + lead.length + 1 + rest.length =
          i + 1 + lead.length + (head :: rest).length := by
        rw [List.length_cons, Nat.add_assoc _ 1 rest.length, Nat.add_comm 1]
      rw [body_of_opens hkey hregion' hlead ⟨hitem, hindent⟩, hextent, hlength]

theorem exists_itemsUnder_body (stop : Nat) :
    ∃ lead old below, (o.take stop).drop (i + 1) = lead ++ (old ++ below) ∧
      ItemsUnder key.indent lead old below (o.body i stop .sequence).indent := by
  generalize hregion : (o.take stop).drop (i + 1) = region
  have hnone : (∀ l ∈ region.find? (·.isContent), ¬(l.isItem = true ∧ key.indent ≤ l.indent)) →
      ∃ lead old below, region = lead ++ (old ++ below) ∧
        ItemsUnder key.indent lead old below (o.body i stop .sequence).indent := by
    intro hbelow
    have hitems := ItemsUnder.none hbelow
    refine ⟨[], [], region, rfl, ?_⟩
    rwa [body_of_itemsUnder hkey (by rw [hregion]; rfl) hitems]
  cases hfind : region.find? (·.isContent) with
  | none => exact hnone (by simp [hfind])
  | some head =>
      by_cases hopens : head.isItem = true ∧ key.indent ≤ head.indent
      · obtain ⟨-, lead, rest, rfl, hlead⟩ := List.find?_eq_some_iff_append.mp hfind
        obtain ⟨front, back, rfl, -, hinside, hlast, hback⟩ :=
          extent_spec (staysInBody .sequence head.indent) rest
        have hitems : ItemsUnder key.indent lead (head :: front) back head.indent := by
          refine .some (by simpa using hlead) hopens.1 hopens.2
            (fun l hl hcontent => OutlineLine.inItems_iff.mpr (hinside l hl hcontent)) ?_ ?_
          · by_cases hfront : front = []
            · simpa [hfront] using OutlineLine.isContent_of_isItem hopens.1
            · rwa [List.getLast?_cons_of_ne_nil hfront]
          · intro l hl h
            have houtside := extent_eq_zero_iff.mp hback l hl
            rw [OutlineLine.inItems_iff.mp h] at houtside
            cases houtside
        refine ⟨lead, head :: front, back, by simp, ?_⟩
        rwa [body_of_itemsUnder hkey (by rw [hregion]; simp) hitems]
      · exact hnone (by simpa [hfind] using hopens)

end Body

end Outline

end Marginalia.Yaml

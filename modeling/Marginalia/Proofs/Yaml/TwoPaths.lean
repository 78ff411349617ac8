import Marginalia.Proofs.Yaml.PathValue

/-!
# Two other values at once

A document in which the values at two paths are replaced has both new values
when neither path leads through the other one, and all other modules keep their
values.
-/

namespace Marginalia.Yaml

namespace Node

/-- Another node in the place of a value, with what a reader makes of its
tokens. -/
structure Replaces (new : Node) (size : Nat) (ts : List Token) (levels : Nat) (value : Value) :
    Prop where
  isValue : ∀ rest, endsBlockEntry rest.head? = true → IsValue new size ts rest
  anchored : new.anchored = []
  means : Value.Means new levels value

end Node

namespace Value

theorem lookup_eq_foldl (root : Value) (module path : Text) :
    root.lookup module path = (module :: Outline.segments path).foldl
      (fun v? segment => v?.bind (·.get? segment)) (some root) := rfl

variable {upper lower : Node} {upperPath lowerPath : List Text}
  {upperSize lowerSize upperSize' lowerSize' upperLevels lowerLevels : Nat}
  {upperValue lowerValue : Value} {above upperOld upperNew between lowerOld lowerNew beneath :
    List Token}

theorem exists_ofTokens_of_two
    (hupper : Node.LeadsTo upperPath above)
    (hlower : Node.LeadsTo lowerPath (above ++ (upperOld ++ between)))
    (hupperOld : ∀ rest, Node.FillsValue upperSize upperOld (between ++ rest))
    (hlowerOld : Node.FillsValue lowerSize lowerOld beneath)
    (hupperNew : upper.Replaces upperSize' upperNew upperLevels upperValue)
    (hlowerNew : lower.Replaces lowerSize' lowerNew lowerLevels lowerValue)
    (hupperLevels : upperLevels ≤ nestingLimit - upperPath.length)
    (hlowerLevels : lowerLevels ≤ nestingLimit - lowerPath.length) {root : Value}
    (hfew : ∀ d left, Node.readDocument
      (above ++ (upperOld ++ (between ++ (lowerOld ++ beneath)))) = .ok (d, left) →
        ∃ v, ofDocument ⟨d.root, d.events - (upperSize + lowerSize)⟩ = .ok v)
    (hroot : ofTokens (above ++ (upperOld ++ (between ++ (lowerOld ++ beneath)))) = .ok root) :
    ∃ old old' vs vs₁ vs₂, root = map vs ∧ ofEntries.distinct vs = true ∧
      DifferAt old lowerValue lowerPath vs vs₁ ∧ DifferAt old' upperValue upperPath vs₁ vs₂ ∧
      ofTokens (above ++ (upperNew ++ (between ++ (lowerNew ++ beneath)))) = .ok (map vs₂) := by
  obtain ⟨d, left, hread, hleft, hroot⟩ := ofTokens_eq_ok_iff.mp hroot
  have hsplit : ∀ us, above ++ (upperOld ++ (between ++ us)) =
      above ++ (upperOld ++ between) ++ us := fun us => by simp
  obtain ⟨v, hv⟩ := hfew _ _ hread
  rw [hsplit] at hread
  -- first the lower value, then the upper one
  obtain ⟨lowerNode, es, es₁, events, hlowerAnchored, rfl, hlowerDiffer, hread₁⟩ :=
    Node.exists_readDocument_of_leadsTo hlower hlowerOld (hlowerNew.isValue beneath) hread
  rw [← hsplit] at hread₁
  obtain ⟨upperNode, es₁', es₂, events', hupperAnchored, hdocument, hupperDiffer, hread₂⟩ :=
    Node.exists_readDocument_of_leadsTo hupper (hupperOld _) (hupperNew.isValue _) hread₁
  simp only [Node.Document.mk.injEq, Node.mapping.injEq, true_and] at hdocument
  obtain ⟨rfl, hevents⟩ := hdocument
  -- without the events that may be lost the value is the same
  obtain rfl : v = root := by
    have hsame := ofDocument_of_le hv (Nat.sub_le _ _)
    rw [hroot] at hsame
    exact (Except.ok.inj hsame).symm
  dsimp only at hv
  obtain ⟨old, vs, vs₁, rfl, hdistinct, hvalues₁, hdocument₁⟩ :=
    exists_ofDocument_of_differAt hlowerDiffer hlowerAnchored hlowerNew.anchored hlowerNew.means
      hlowerLevels (Nat.le_refl _) hv
  obtain ⟨old', _, vs₂, hsame, -, hvalues₂, hdocument₂⟩ :=
    exists_ofDocument_of_differAt hupperDiffer hupperAnchored hupperNew.anchored hupperNew.means
      hupperLevels (show events + lowerSize - (upperSize + lowerSize) ≤ events' + upperSize' by
        omega) hdocument₁
  obtain rfl := map.inj hsame
  exact ⟨old, old', vs, vs₁, vs₂, rfl, hdistinct, hvalues₁, hvalues₂,
    ofTokens_eq_ok_iff.mpr ⟨_, left, hread₂, hleft, hdocument₂⟩⟩

/-- Both paths lead to the new values, and the other modules keep theirs. -/
theorem lookup_of_two {module upperPath lowerPath : Text} {old old' : Value}
    {vs vs₁ vs₂ : List (Value × Value)} (hdistinct : ofEntries.distinct vs = true)
    (hlower : DifferAt old lowerValue (module :: Outline.segments lowerPath) vs vs₁)
    (hupper : DifferAt old' upperValue (module :: Outline.segments upperPath) vs₁ vs₂)
    (hinside : ¬Outline.segments upperPath <+: Outline.segments lowerPath)
    (haround : ¬Outline.segments lowerPath <+: Outline.segments upperPath) :
    (map vs₂).lookup module upperPath = some upperValue ∧
      (map vs₂).lookup module lowerPath = some lowerValue ∧
      ∀ other, other ≠ module → (map vs₂).get? other = (map vs).get? other := by
  rw [distinct_congr hlower.map_fst_eq] at hdistinct
  refine ⟨?_, ?_, fun other hother => ?_⟩
  · rw [distinct_congr hupper.map_fst_eq] at hdistinct
    exact hupper.foldl_get?_eq hdistinct
  · have hapart : ¬module :: Outline.segments upperPath <+:
        module :: Outline.segments lowerPath := by
      simpa using hinside
    rw [lookup_eq_foldl, hupper.foldl_get?_eq_of_apart hapart (by simpa using haround),
      ← lookup_eq_foldl]
    exact hlower.foldl_get?_eq hdistinct
  · rw [hupper.get?_eq_of_ne hother, hlower.get?_eq_of_ne hother]

end Value

end Marginalia.Yaml

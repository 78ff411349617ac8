import Marginalia.Proofs.Yaml.ListText
import Marginalia.Proofs.Yaml.Repeated

/-!
# The last list wins

What a list replacement writes is a list: the first line of each new item opens
with a dash at the padding of the old items, and the other lines are deeper.
The key is found where it was, with the same lines above the items and below
them, and the items that are found there are the lines that were written.  A
second replacement therefore writes what it would have written at once.
-/

namespace Marginalia.Yaml

/-! ## Other lines between the same ones -/

namespace Outline

open OutlineLine (SameShape)

variable {front old new back : Outline}

theorem toNextModule_append (h : ∀ l ∈ front, l.opensModule = false) :
    toNextModule (front ++ back) = front.length + toNextModule back := by
  rw [toNextModule, List.takeWhile_append_of_pos (by simpa using h), List.length_append,
    toNextModule]

theorem opensModule_of_le_toNextModule (h : front.length ≤ toNextModule (front ++ back)) :
    ∀ l ∈ front, l.opensModule = false := by
  induction front with
  | nil => simp
  | cons l front ih =>
      rw [toNextModule, List.cons_append, List.takeWhile_cons] at h
      cases hl : l.opensModule with
      | true => simp [hl] at h
      | false =>
          simp only [hl, Bool.not_false, if_true, List.length_cons, Nat.add_le_add_iff_right] at h
          exact List.forall_mem_cons.mpr ⟨hl, ih h⟩

/-- Lines inside a module can be exchanged for others that open none. -/
theorem moduleFrom?_append {name : Text} {index extra : Nat} {range : LineRange}
    (hold : ∀ l ∈ old, l.opensModule = false) (hnew : ∀ l ∈ new, l.opensModule = false)
    (h : moduleFrom? name index (front ++ (old ++ back)) = some range)
    (hstart : range.start < index + front.length)
    (hstop : range.stop = index + front.length + old.length + extra) :
    moduleFrom? name index (front ++ (new ++ back)) =
      some ⟨range.start, index + front.length + new.length + extra⟩ := by
  induction front generalizing index with
  | nil =>
      have hlow := (moduleFrom?_bounds h).1
      simp only [List.length_nil] at hstart
      omega
  | cons l front ih =>
      simp only [List.length_cons] at hstart hstop
      simp only [List.cons_append, moduleFrom?] at h ⊢
      split at h
      · next hl =>
          obtain rfl := Option.some.inj h
          dsimp only at hstop
          -- the module opens here and reaches past the lines that are exchanged
          have hlow : front.length ≤ toNextModule (front ++ (old ++ back)) := by omega
          have hfront := opensModule_of_le_toNextModule hlow
          rw [toNextModule_append hfront, toNextModule_append hold] at hstop
          rw [if_pos hl, toNextModule_append hfront, toNextModule_append hnew]
          simp only [List.length_cons, Option.some.injEq, LineRange.mk.injEq, true_and]
          omega
      · next hl =>
          rw [if_neg hl, ih h (by omega) (by omega)]
          simp only [List.length_cons, Option.some.injEq, LineRange.mk.injEq, true_and]
          omega

/-- A path that ends in the first lines does not depend on the others. -/
theorem walk_append {index n : Nat} {w : Walk} {segment : Text} {deeper : List Text}
    {back' : Outline} (h : walk index w segment deeper (front ++ back) = some n)
    (hn : n < index + front.length) : walk index w segment deeper (front ++ back') = some n := by
  induction front generalizing index w segment deeper with
  | nil =>
      have hlow := (walk_bounds h).1
      simp only [List.length_nil] at hn
      omega
  | cons l front ih =>
      have hbelow : n < index + 1 + front.length := by
        simp only [List.length_cons] at hn
        omega
      simp only [List.cons_append, walk] at h ⊢
      split at h
      · next hcontent =>
          rw [if_pos hcontent]
          exact ih h hbelow
      · next hcontent =>
          rw [if_neg hcontent]
          split at h
          · next hshallow =>
              rw [if_pos hshallow]
              split at h
              · cases h
              · next hinside =>
                  rw [if_neg hinside]
                  exact ih h hbelow
          · next hshallow =>
              rw [if_neg hshallow]
              split at h
              · next hother =>
                  rw [if_pos hother]
                  exact ih h hbelow
              · next hother =>
                  rw [if_neg hother]
                  cases deeper with
                  | nil => exact h
                  | cons next rest => exact ih h hbelow

/-- A path above some lines of its module is found where it was when these are
exchanged for others that open no module. -/
theorem locate_append {name dotted : Text} {start extra i : Nat}
    (hold : ∀ l ∈ old, l.opensModule = false) (hnew : ∀ l ∈ new, l.opensModule = false)
    (h : locate (front ++ (old ++ back)) name dotted =
      .ok (⟨start, front.length + old.length + extra⟩, i))
    (hi : i < front.length) :
    locate (front ++ (new ++ back)) name dotted =
      .ok (⟨start, front.length + new.length + extra⟩, i) := by
  have hstart := (locate_bounds h).1
  dsimp only at hstart
  obtain ⟨hmodule, hpath⟩ := locate_eq_ok_iff.mp h
  refine locate_eq_ok_iff.mpr ⟨?_, ?_⟩
  · have hstop : front.length + old.length + extra =
        0 + front.length + old.length + extra := by
      omega
    have hfrom := moduleFrom?_append hold hnew (module_eq_ok_iff.mp hmodule)
      (by dsimp only; omega) hstop
    rw [Nat.zero_add] at hfrom
    exact module_eq_ok_iff.mpr hfrom
  · -- the search for the path is over before the lines that are exchanged
    have hhead : ∀ rest : Outline, (front ++ rest)[start]? = front[start]? := fun rest =>
      List.getElem?_append_left (by omega)
    have hinner : ∀ (mid : Outline), ((front ++ (mid ++ back)).take
        (front.length + mid.length + extra)).drop (start + 1) =
          front.drop (start + 1) ++ (mid ++ back.take extra) := by
      intro mid
      rw [← List.append_assoc, ← List.length_append, List.take_length_add_append,
        List.append_assoc, List.drop_append_of_le_length (by omega)]
    generalize segments dotted = path at hpath ⊢
    cases path with
    | nil => simpa [findPath] using hpath
    | cons segment deeper =>
        simp only [findPath, hhead, hinner] at hpath ⊢
        split at hpath
        · next line hwalk =>
            obtain rfl := Except.ok.inj hpath
            have hlength : line < start + 1 + (front.drop (start + 1)).length := by
              rw [List.length_drop]
              omega
            rw [walk_append hwalk hlength]
        · cases hpath

end Outline

/-! ## The lines of items in the outline -/

namespace OutlineLine

variable {l l' : OutlineLine} {indent : Nat}

theorem SameShape.isItem_eq (h : SameShape l l') : l.isItem = l'.isItem := by
  rw [isItem, isItem, h.kind_eq]

theorem SameShape.inItems_iff (h : SameShape l l') : l.InItems indent ↔ l'.InItems indent := by
  rw [InItems, InItems, h.indent_eq, h.isItem_eq]

theorem InItems.opensModule_eq (h : l.InItems indent) : l.opensModule = false := by
  rcases h with hdeep | ⟨-, hitem⟩
  · have hindent : (l.indent == 0) = false := by
      rw [beq_eq_false_iff_ne]
      omega
    rw [opensModule, hindent, Bool.false_and]
  · have hkey : l.key? = none := by
      unfold isItem at hitem
      split at hitem
      · next hkind => simp [key?, hkind]
      · cases hitem
    simp [opensModule, hkey]

theorem opensModule_eq_of_not_isContent (h : l.isContent = false) : l.opensModule = false := by
  have hkey : l.key? = none := by
    unfold isContent at h
    unfold key?
    split at h
    · next hkind => simp [hkind]
    · next hkind => simp [hkind]
    · cases h
  simp [opensModule, hkey]

end OutlineLine

namespace LineKind

theorem exists_ofBody_dash (indent : Nat) (rest : Text) :
    ∃ first?, ofBody indent ('-' :: ' ' :: rest) = .item first? := by
  have hwhite : CharClass.isWhite ' ' = true := by decide
  have hblank : Text.isBlank ('-' :: ' ' :: rest) = false := by
    have hdash : CharClass.isWhite '-' = false := by decide
    simp [Text.isBlank, hdash]
  have hlead : ∃ gap more, dash? ('-' :: ' ' :: rest) = some ('-' :: gap, more) := by
    simp [dash?, hwhite]
  have hprefix : (Text.dropPrefix? ['-', ' '] ('-' :: ' ' :: rest)).isSome = true := by
    rw [Text.dropPrefix?_eq_some_iff.mpr (rfl : '-' :: ' ' :: rest = ['-', ' '] ++ rest)]
    rfl
  obtain ⟨gap, more, hdash⟩ := hlead
  have hsign : ('-' :: ' ' :: rest).head? ≠ some '#' := by simp
  simp only [ofBody, hblank, Bool.false_eq_true, if_false, hsign, hdash, Option.getD_some, hprefix,
    or_true, if_true, List.isEmpty_cons]
  split
  · exact ⟨_, rfl⟩
  · exact ⟨_, rfl⟩

/-- A text with a colon is content unless it opens with a number sign. -/
theorem ofBody_ne_of_colon (indent : Nat) {front rest : Text}
    (h : (front ++ ':' :: rest).head? ≠ some '#') :
    ofBody indent (front ++ ':' :: rest) ≠ .blank ∧
      ofBody indent (front ++ ':' :: rest) ≠ .comment := by
  unfold ofBody
  simp only [isBlank_append_colon, Bool.false_eq_true, if_false, h]
  split
  · split <;> simp
  · split <;> simp

end LineKind

namespace OutlineLine

variable {l : Line} {indent : Nat}

theorem isItem_ofLine_dash {rest : Text}
    (hl : l.content = List.replicate indent ' ' ++ '-' :: ' ' :: rest) :
    (ofLine l).indent = indent ∧ (ofLine l).isItem = true := by
  rw [ofLine_of_content hl (by simp)]
  obtain ⟨first?, hkind⟩ := LineKind.exists_ofBody_dash indent rest
  exact ⟨rfl, by rw [isItem, hkind]⟩

theorem isContent_ofLine_colon {front rest : Text}
    (hl : l.content = List.replicate indent ' ' ++ (front ++ ':' :: rest)) (hfront : '#' ∉ front) :
    indent ≤ (ofLine l).indent ∧ (ofLine l).isContent = true := by
  obtain ⟨n, body, rfl, hbody⟩ := exists_indent front
  have hspaces : List.replicate indent ' ' ++ (List.replicate n ' ' ++ body ++ ':' :: rest) =
      List.replicate (indent + n) ' ' ++ (body ++ ':' :: rest) := by
    rw [List.append_assoc, ← List.append_assoc, List.replicate_append_replicate]
  rw [hspaces] at hl
  have hhead : ∀ c ∈ (body ++ ':' :: rest).head?, c = ':' ∨ c ∈ body.head? := by
    cases body with
    | nil => simp
    | cons c body => simp
  have hspace : (body ++ ':' :: rest).head? ≠ some ' ' := by
    intro h
    rcases hhead _ h with hc | hc
    · cases hc
    · exact hbody hc
  have hsign : (body ++ ':' :: rest).head? ≠ some '#' := by
    intro h
    rcases hhead _ h with hc | hc
    · cases hc
    · exact hfront (List.mem_append_right _ (List.mem_of_mem_head? hc))
  obtain ⟨hblank, hcomment⟩ := LineKind.ofBody_ne_of_colon (indent + n) hsign
  rw [ofLine_of_content hl hspace]
  refine ⟨Nat.le_add_right _ _, ?_⟩
  unfold isContent
  split
  · next hkind => exact absurd hkind hblank
  · next hkind => exact absurd hkind hcomment
  · rfl

end OutlineLine

/-- The keys of an item keep to their lines and open no comment. -/
inductive ListItem.Tidy : ListItem → Prop
  | scalar (x : Scalar) : Tidy (.scalar x)
  | record {fields : List (Text × Scalar)} (hkeys : ∀ f ∈ fields, '\n' ∉ f.1 ∧ '#' ∉ f.1) :
      Tidy (.record fields)

namespace ListItem

variable {item : ListItem}

theorem not_mem_render (quote : Quote) (x : Scalar) : '\n' ∉ x.render quote := fun h =>
  absurd (Scalar.noControl_render quote x _ h) (by decide)

theorem not_mem_field {lead key : Text} {x : Scalar} (hlead : '\n' ∉ lead) (hkey : '\n' ∉ key) :
    '\n' ∉ field lead key x := by
  rw [field_eq]
  simp [hlead, hkey, not_mem_render]

theorem Tidy.not_mem_of_mem_render (h : item.Tidy) : ∀ l ∈ item.render, '\n' ∉ l := by
  cases h with
  | scalar x => simpa [render] using not_mem_render .plain x
  | @record fields hkeys =>
      cases fields with
      | nil => simp [render]
      | cons f fields =>
          obtain ⟨hf, hfields⟩ := List.forall_mem_cons.mp hkeys
          refine List.forall_mem_cons.mpr ⟨not_mem_field (by simp) hf.1, ?_⟩
          rw [List.forall_mem_map]
          exact fun g hg => not_mem_field (by simp) (hfields g hg).1

/-- The first line of an item opens with a dash. -/
theorem exists_render_eq_cons (item : ListItem) :
    ∃ rest ls, item.render = ('-' :: ' ' :: rest) :: ls := by
  cases item with
  | scalar x => exact ⟨_, [], rfl⟩
  | record fields =>
      cases fields with
      | nil => exact ⟨_, [], rfl⟩
      | cons f fields => exact ⟨_, _, by rw [render, field_eq]; rfl⟩

/-- Each line of an item opens with a dash or is deeper and opens with a key. -/
theorem Tidy.exists_of_mem_render (h : item.Tidy) : ∀ l ∈ item.render,
    (∃ rest, l = '-' :: ' ' :: rest) ∨
      ∃ key rest, l = ' ' :: ' ' :: (key ++ ':' :: rest) ∧ '#' ∉ key := by
  cases h with
  | scalar x => exact List.forall_mem_singleton.mpr (Or.inl ⟨_, rfl⟩)
  | @record fields hkeys =>
      cases fields with
      | nil => exact List.forall_mem_singleton.mpr (Or.inl ⟨_, rfl⟩)
      | cons f fields =>
          refine List.forall_mem_cons.mpr ⟨Or.inl ⟨_, by rw [field_eq]; rfl⟩, ?_⟩
          rw [List.forall_mem_map]
          intro g hg
          have hkey := (hkeys g (List.mem_cons_of_mem f hg)).2
          exact Or.inr ⟨g.1, _, field_eq [' ', ' '] g.1 g.2, hkey⟩

/-- With the padding of a list, each line of a tidy item belongs to the items of
that list. -/
theorem Tidy.inItems_ofLine (h : item.Tidy) {text : Text} (htext : text ∈ item.render) {l : Line}
    {indent : Nat} (hl : l.content = List.replicate indent ' ' ++ text) :
    (OutlineLine.ofLine l).isContent = true ∧ (OutlineLine.ofLine l).InItems indent := by
  rcases h.exists_of_mem_render text htext with ⟨rest, rfl⟩ | ⟨key, rest, rfl, hkey⟩
  · obtain ⟨hindent, hitem⟩ := OutlineLine.isItem_ofLine_dash hl
    exact ⟨OutlineLine.isContent_of_isItem hitem, Or.inr ⟨hindent, hitem⟩⟩
  · have hdeep : l.content = List.replicate (indent + 2) ' ' ++ (key ++ ':' :: rest) := by
      rw [hl, List.replicate_add, List.append_assoc]
      rfl
    obtain ⟨hindent, hcontent⟩ := OutlineLine.isContent_ofLine_colon hdeep hkey
    exact ⟨hcontent, Or.inl (by omega)⟩

end ListItem

/-! ## Items in the place of items -/

namespace ItemsUnder

open OutlineLine (SameShape)

variable {key indent : Nat} {lead old below : Outline}

theorem opensModule_eq (h : ItemsUnder key lead old below indent) :
    ∀ l ∈ old, l.opensModule = false := by
  cases h with
  | none => simp
  | some _ hitem _ hinside =>
      refine List.forall_mem_cons.mpr ⟨?_, fun l hl => ?_⟩
      · exact OutlineLine.InItems.opensModule_eq (Or.inr ⟨rfl, hitem⟩)
      · cases hcontent : l.isContent with
        | false => exact OutlineLine.opensModule_eq_of_not_isContent hcontent
        | true => exact (hinside l hl hcontent).opensModule_eq

/-- Of two outlines that locating does not tell apart the first content lines
are not told apart. -/
theorem exists_find?_isContent {o o' : Outline} (h : List.Forall₂ SameShape o o') :
    ∀ l' ∈ o'.find? (·.isContent), ∃ l ∈ o.find? (·.isContent), SameShape l l' := by
  induction h with
  | nil => simp
  | @cons l l' o o' hl _ ih =>
      cases hcontent : l.isContent with
      | false =>
          have hcontent' : l'.isContent = false := hl.isContent_eq ▸ hcontent
          simpa [hcontent, hcontent'] using ih
      | true =>
          have hcontent' : l'.isContent = true := hl.isContent_eq ▸ hcontent
          simpa [hcontent, hcontent'] using hl

/-- Other items can stand in the place of items, between lines that locating
does not tell from the old ones. -/
theorem replaced (h : ItemsUnder key lead old below indent) (hold : old ≠ [])
    {lead' new below' : Outline} (hlead : List.Forall₂ SameShape lead lead')
    (hbelow : List.Forall₂ SameShape below below') {head : OutlineLine} {rest : Outline}
    (hnew : new = head :: rest) (hhead : head.indent = indent ∧ head.isItem = true)
    (hinside : ∀ l ∈ new, l.isContent = true ∧ l.InItems indent) :
    ItemsUnder key lead' new below' indent := by
  cases h with
  | none => exact absurd rfl hold
  | some hlead₀ hitem hindent _ _ hbelow₀ =>
      subst hnew
      obtain ⟨hhead, hitem'⟩ := hhead
      rw [← hhead] at hindent hinside hbelow₀ ⊢
      refine .some ?_ hitem' hindent
        (fun l hl _ => (hinside l (List.mem_cons_of_mem head hl)).2)
        (fun l hl => (hinside l (List.mem_of_getLast? hl)).1) ?_
      · have hnone : lead'.find? (·.isContent) = Option.none := by
          rw [Option.eq_none_iff_forall_not_mem]
          intro l' hl'
          obtain ⟨l, hl, -⟩ := exists_find?_isContent hlead l' hl'
          have hcontent := List.find?_some hl
          rw [hlead₀ l (List.mem_of_find?_eq_some hl)] at hcontent
          cases hcontent
        simpa using hnone
      · intro l' hl' hinside'
        obtain ⟨l, hl, hsame⟩ := exists_find?_isContent hbelow l' hl'
        exact hbelow₀ l hl (hsame.inItems_iff.mpr hinside')

end ItemsUnder

namespace Scalar

theorem IsComment.closesKey {note : Text} (h : IsComment note) :
    LineKind.closesKey note = true := by
  rcases h with rfl | ⟨gap, r, hgap, hwhite, rfl⟩
  · rfl
  · obtain ⟨c, gap, rfl⟩ := List.exists_cons_of_ne_nil hgap
    exact hwhite c (List.mem_cons_self ..)

theorem splitComment_of_isComment {note : Text} (h : IsComment note) :
    splitComment note = ([], note) := by
  have hcut := splitComment_append (.nil (.outside true)) h
  have hnil : Text.trimEnd [] = [] := rfl
  have hwhite : Text.endWhite [] = [] := rfl
  rw [List.nil_append, hnil, hwhite, List.nil_append] at hcut
  rw [hcut]
  split
  · next hnote => rw [hnote]
  · rfl

end Scalar

namespace Patch

variable {t u module path : Text}

theorem FieldAt.ofLine?_without_value {i : Nat} {l l' : Line} {k : KeyLine}
    (h : FieldAt t module path i l k) (hl' : l'.content = k.head ++ k.comment) :
    (OutlineLine.ofLine l').shape = (OutlineLine.ofLine l).shape ∧
      KeyLine.ofLine? (.ofLine l') = some ⟨k.head, [], [], k.comment⟩ := by
  have hcomment := h.isComment
  obtain ⟨front, rest, -, -, hk, hread⟩ := h.exists_cut
  have hhead : k.head = front ++ [':'] := by rw [hk]; rfl
  rw [hhead, List.append_assoc, List.singleton_append] at hl'
  obtain ⟨hshape, hcut⟩ := hread l' k.comment hl' hcomment.closesKey
  refine ⟨hshape, ?_⟩
  rw [hcut, hhead, KeyLine.cut, Scalar.splitComment_of_isComment hcomment]
  rfl

theorem map_fst_writtenLines (indent : Nat) (ending last : Terminator) (ls : List Text) :
    (writtenLines indent ending last ls).map Prod.fst =
      ls.map (List.replicate indent ' ' ++ ·) := by
  induction ls with
  | nil => rfl
  | cons l ls ih => rw [writtenLines, List.map_cons, ih, List.map_cons]

theorem getLast?_writtenLines (indent : Nat) (ending last : Terminator) {ls : List Text}
    (hls : ls ≠ []) :
    (writtenLines indent ending last ls).getLast?.map Prod.snd = some last := by
  induction ls with
  | nil => exact absurd rfl hls
  | cons l ls ih =>
      cases ls with
      | nil => rfl
      | cons l' ls =>
          rw [writtenLines, List.getLast?_cons_of_ne_nil (by simp [writtenLines])]
          exact ih (by simp)

theorem flatMap_render_ne_nil {a : List ListItem} (ha : a ≠ []) :
    a.flatMap ListItem.render ≠ [] := by
  obtain ⟨item, a, rfl⟩ := List.exists_cons_of_ne_nil ha
  obtain ⟨rest, more, hrender⟩ := item.exists_render_eq_cons
  simp [hrender]

/-- The lines of written items, with the padding of a list, in the outline. -/
theorem exists_items_ofLine {a : List ListItem} (ha : a ≠ []) (htidy : ∀ item ∈ a, item.Tidy)
    {ls : List Line} {indent : Nat} (h : ls.map Line.content =
      (a.flatMap ListItem.render).map (List.replicate indent ' ' ++ ·)) :
    ∃ head rest, ls.map OutlineLine.ofLine = head :: rest ∧
      (head.indent = indent ∧ head.isItem = true) ∧
      ∀ l ∈ ls.map OutlineLine.ofLine, l.isContent = true ∧ l.InItems indent := by
  have hinside : ∀ l ∈ ls.map OutlineLine.ofLine, l.isContent = true ∧ l.InItems indent := by
    rw [List.forall_mem_map]
    intro l hl
    have hmem := List.mem_map_of_mem (f := Line.content) hl
    rw [h, List.mem_map] at hmem
    obtain ⟨text, htext, hcontent⟩ := hmem
    obtain ⟨item, hitem, htext⟩ := List.mem_flatMap.mp htext
    exact (htidy item hitem).inItems_ofLine htext hcontent.symm
  obtain ⟨item, a, rfl⟩ := List.exists_cons_of_ne_nil ha
  obtain ⟨rest, more, hrender⟩ := item.exists_render_eq_cons
  rw [List.flatMap_cons, hrender, List.cons_append, List.map_cons, List.map_eq_cons_iff] at h
  obtain ⟨l, ls, rfl, hl, -⟩ := h
  exact ⟨_, _, List.map_cons, OutlineLine.isItem_ofLine_dash hl, hinside⟩

theorem map_shape_of_parts {ls ls' : List Line} (h : ls.map Line.parts = ls'.map Line.parts) :
    (ls.map OutlineLine.ofLine).map OutlineLine.shape =
      (ls'.map OutlineLine.ofLine).map OutlineLine.shape := by
  rw [List.map_map, List.map_map, OutlineLine.shape_comp_ofLine, ← List.map_map, h, List.map_map]

namespace ListAt

variable (s : ListAt t module path)

/-- The lines of the new text, one stretch after the other. -/
theorem exists_lines_rewritten {rendered : List Text}
    (hu : u.lines.map Line.parts = s.rewritten rendered) :
    ∃ above key lead new below, u.lines = above ++ key :: (lead ++ (new ++ below)) ∧
      above.map Line.parts = s.above.map Line.parts ∧ key.parts = s.keyPart rendered ∧
      lead.map Line.parts = s.lead.map Line.parts ∧
      new.map Line.parts = writtenLines s.indent s.ending s.lastEnding rendered ∧
      below.map Line.parts = s.below.map Line.parts := by
  obtain ⟨above, tail, hlines, habove, htail⟩ := List.map_eq_append_iff.mp hu
  obtain ⟨key, tail, rfl, hkey, htail⟩ := List.map_eq_cons_iff.mp htail
  obtain ⟨lead, tail, rfl, hlead, htail⟩ := List.map_eq_append_iff.mp htail
  obtain ⟨new, below, rfl, hnew, hbelow⟩ := List.map_eq_append_iff.mp htail
  exact ⟨above, key, lead, new, below, hlines, habove, hkey, hlead, hnew, hbelow⟩

theorem keyPart_eq {rendered : List Text} (h : rendered ≠ []) :
    s.keyPart rendered = (s.parts.head ++ s.parts.comment, s.ending) := by
  rw [keyPart, if_neg (by simpa using h)]

theorem lastEnding_eq (h : s.lastEnding ≠ .none) : s.lastEnding = s.ending := by
  unfold lastEnding at h ⊢
  split
  · next hopen => exact absurd (if_pos hopen) h
  · rfl

theorem outline_eq : Outline.ofText t = (s.above ++ s.key :: s.lead).map .ofLine ++
    (s.old.map .ofLine ++ s.below.map .ofLine) := by
  rw [Outline.ofText, s.lines_eq]
  simp

/-- The number of lines of the module below the last item. -/
def extra : Nat :=
  s.stop - (s.above.length + 1 + s.lead.length + s.old.length)

theorem exists_locate_rewritten {above lead new below : List Line} {key : Line}
    (hlines : u.lines = above ++ key :: (lead ++ (new ++ below)))
    (habove : above.map Line.parts = s.above.map Line.parts)
    (hkey : (OutlineLine.ofLine key).shape = (OutlineLine.ofLine s.key).shape)
    (hlead : lead.map Line.parts = s.lead.map Line.parts)
    (hbelow : below.map Line.parts = s.below.map Line.parts)
    (hnew : ∀ l ∈ new.map OutlineLine.ofLine, l.opensModule = false) :
    ∃ start, (Outline.ofText u).locate module path =
      .ok (⟨start, above.length + 1 + lead.length + new.length + s.extra⟩, above.length) := by
  obtain ⟨start, hlocate⟩ := s.located
  have hwithin := s.within
  have habove' : above.length = s.above.length := by
    simpa using congrArg List.length habove
  have hlead' : lead.length = s.lead.length := by
    simpa using congrArg List.length hlead
  have hfront : (((s.above ++ s.key :: s.lead).map OutlineLine.ofLine).length) =
      s.above.length + 1 + s.lead.length := by
    simp only [List.length_map, List.length_append, List.length_cons]
    omega
  have hstop : s.stop = ((s.above ++ s.key :: s.lead).map OutlineLine.ofLine).length +
      (s.old.map OutlineLine.ofLine).length + s.extra := by
    rw [hfront, List.length_map, extra]
    omega
  rw [s.outline_eq, hstop] at hlocate
  have hmoved := Outline.locate_append s.items.opensModule_eq hnew hlocate (by rw [hfront]; omega)
  have hshapes : (Outline.ofText u).map OutlineLine.shape =
      ((s.above ++ s.key :: s.lead).map OutlineLine.ofLine ++
        (new.map OutlineLine.ofLine ++ s.below.map OutlineLine.ofLine)).map OutlineLine.shape := by
    simp only [Outline.ofText, hlines, List.map_append, List.map_cons, map_shape_of_parts habove,
      hkey, map_shape_of_parts hlead, map_shape_of_parts hbelow, List.append_assoc,
      List.cons_append]
  refine ⟨start, ?_⟩
  rw [Outline.locate_congr hshapes, hmoved, hfront, List.length_map, habove', hlead']

/-- The list is found where it was, with the items that were written. -/
theorem exists_listAt_rewritten (hold : s.old ≠ []) {a : List ListItem} (ha : a ≠ [])
    (htidy : ∀ item ∈ a, item.Tidy)
    (hu : u.lines.map Line.parts = s.rewritten (a.flatMap ListItem.render)) :
    ∃ s' : ListAt u module path, s'.above.length = s.above.length ∧
      s'.lead.length = s.lead.length ∧ s'.indent = s.indent ∧ s'.parts.value = [] ∧
      s'.old.map Line.content =
        (a.flatMap ListItem.render).map (List.replicate s.indent ' ' ++ ·) ∧
      ∀ rendered, rendered ≠ [] → s'.rewritten rendered = s.rewritten rendered := by
  obtain ⟨above, key, lead, new, below, hlines, habove, hkey, hlead, hnew, hbelow⟩ :=
    s.exists_lines_rewritten hu
  have hrendered := flatMap_render_ne_nil ha
  rw [s.keyPart_eq hrendered] at hkey
  have hterminator : key.terminator = s.ending := congrArg Prod.snd hkey
  obtain ⟨hshape, hparts⟩ := s.fieldAt.ofLine?_without_value (congrArg Prod.fst hkey)
  have hcontents : new.map Line.content =
      (a.flatMap ListItem.render).map (List.replicate s.indent ' ' ++ ·) := by
    have hfirst := congrArg (List.map Prod.fst) hnew
    rwa [List.map_map, map_fst_writtenLines] at hfirst
  obtain ⟨last, hlast, hlastEnding⟩ : ∃ last, new.getLast? = some last ∧
      last.terminator = s.lastEnding := by
    have hsecond := getLast?_writtenLines s.indent s.ending s.lastEnding hrendered
    rw [← hnew, List.getLast?_map, Option.map_map, Option.map_eq_some_iff] at hsecond
    exact hsecond
  obtain ⟨head, rest, hitems, hhead, hinside⟩ := exists_items_ofLine ha htidy hcontents
  have hlocate := s.exists_locate_rewritten hlines habove hshape hlead hbelow
    fun l hl => (hinside l hl).2.opensModule_eq
  have hlead' := Outline.forall₂_sameShape (map_shape_of_parts hlead.symm)
  have hbelow' :=
    List.forall₂_take s.extra (Outline.forall₂_sameShape (map_shape_of_parts hbelow.symm))
  have hunder := s.items.replaced (by simpa using hold) hlead' (List.map_take ▸ hbelow') hitems
    hhead hinside
  -- the stretches of the new text, with the written lines for its items
  have hindent : (OutlineLine.ofLine key).indent = (OutlineLine.ofLine s.key).indent :=
    congrArg Prod.fst hshape
  let s' : ListAt u module path := {
    above, key, lead, below
    old := new
    stop := above.length + 1 + lead.length + new.length + s.extra
    parts := ⟨s.parts.head, [], [], s.parts.comment⟩
    indent := s.indent
    lines_eq := hlines
    located := hlocate
    keyed := hparts
    within := Nat.le_add_right _ _
    items := by
      rw [Nat.add_sub_cancel_left, List.map_take, hindent]
      exact hunder }
  have hending : s'.ending = s.ending :=
    (s'.ending_eq (hterminator ▸ s.ending_ne_none)).trans hterminator
  have hlastEnding' : s'.lastEnding = s.lastEnding := by
    have hunfold : s'.lastEnding = if s.lastEnding = .none then .none else s.ending := by
      rw [← hending, ← hlastEnding, lastEnding, hlast]
      rfl
    rw [hunfold]
    split
    · next h => exact h.symm
    · next h => exact (s.lastEnding_eq h).symm
  refine ⟨s', by simpa using congrArg List.length habove, by simpa using congrArg List.length hlead,
    rfl, rfl, hcontents, fun rendered hne => ?_⟩
  rw [rewritten, rewritten, s'.keyPart_eq hne, s.keyPart_eq hne, hending, hlastEnding', habove,
    hlead, hbelow]

end ListAt

/-! ## One list after another -/

/-- The text with other items in the list at `path` of a module; nothing where
the edits do not fit the text. -/
def setList (t module path : Text) (items : List ListItem) : Except Miss (Option Text) :=
  (replaceList t module path items).map (Edit.applyAll? · t)

theorem ListAt.setList_eq (s : ListAt t module path) (hroom : admitsBlock '[' s.parts = true)
    (items : List ListItem) : setList t module path items =
      .ok (some (Text.ofParts (s.rewritten (items.flatMap ListItem.render)))) := by
  obtain ⟨start, hlocate⟩ := s.located
  obtain ⟨es, hes⟩ := (exists_replaceList_eq_ok_iff items).mpr
    ⟨_, _, _, _, hlocate, s.keyLine_eq, by rintro _ ⟨⟩; exact hroom⟩
  rw [setList, hes, Except.map, (s.applyAll?_of_replaceList hes).2]

/-- The last of two lists wins: below a key without a value, with items under
it, writing `a` and then `b` is writing `b`, and in between the body under the
key is the lines of `a`, at the padding of the old items. -/
theorem setList_setList {range : LineRange} {i : Nat} {l : OutlineLine} {k : KeyLine}
    (hlocate : (Outline.ofText t).locate module path = .ok (range, i))
    (hkey : keyLine (Outline.ofText t) i module path = .ok (l, k)) (hvalue : k.value = [])
    {old : Body} (hbody : (Outline.ofText t).body i range.stop .sequence = old)
    (hitems : old.lines.start < old.lines.stop) {a b : List ListItem} (ha : a ≠ []) (hb : b ≠ [])
    (htidy : ∀ item ∈ a, item.Tidy) :
    ∃ u w, setList t module path a = .ok (some u) ∧ setList u module path b = .ok (some w) ∧
      setList t module path b = .ok (some w) ∧
      ∃ range', (Outline.ofText u).locate module path = .ok (range', i) ∧
        (Outline.ofText u).body i range'.stop .sequence =
          ⟨⟨old.lines.start, old.lines.start + (a.flatMap ListItem.render).length⟩, old.indent⟩ ∧
        ((u.lines.drop old.lines.start).take (a.flatMap ListItem.render).length).map Line.content =
          (a.flatMap ListItem.render).map (List.replicate old.indent ' ' ++ ·) := by
  obtain ⟨s, rfl, hstop⟩ := exists_listAt hlocate
  rw [← hstop, s.body_eq] at hbody
  subst hbody
  obtain ⟨rfl, rfl⟩ := Prod.mk.inj (Except.ok.inj (s.keyLine_eq.symm.trans hkey))
  have hold : s.old ≠ [] := by
    intro hnone
    simp [ListAt.body, hnone] at hitems
  have hended : s.key.terminator ≠ .none := fun h => hold (s.below_of_open h).2.1
  have hlaid : Text.Laid (s.rewritten (a.flatMap ListItem.render)) := by
    refine s.laid_rewritten (fun text htext => ?_) fun h => absurd h hended
    obtain ⟨item, hitem, htext⟩ := List.mem_flatMap.mp htext
    exact isLine_render htext ((htidy item hitem).not_mem_of_mem_render text htext)
  obtain ⟨s', habove, hlead, hindent, hvalue', hcontents, hrewritten⟩ :=
    s.exists_listAt_rewritten hold ha htidy hlaid.map_parts_lines
  have hroom : ∀ {k : KeyLine}, k.value = [] → admitsBlock '[' k = true := fun h => by
    simp [admitsBlock, h]
  have hwritten : b.flatMap ListItem.render ≠ [] := flatMap_render_ne_nil hb
  have hlength : s'.old.length = (a.flatMap ListItem.render).length := by
    simpa using congrArg List.length hcontents
  have hstart : s'.body.lines.start = s.body.lines.start := by
    simp only [ListAt.body, habove, hlead]
  obtain ⟨start, hlocate'⟩ := s'.located
  have hbody' := s'.body_eq
  rw [habove] at hlocate' hbody'
  refine ⟨_, _, s.setList_eq (hroom hvalue) a, s'.setList_eq (hroom hvalue') b, ?_, _, hlocate', ?_,
    ?_⟩
  · rw [s.setList_eq (hroom hvalue) b, hrewritten _ hwritten]
  · rw [hbody', ← hlength, ← hstart]
    simp only [ListAt.body, hindent]
  · rw [← hstart, s'.drop_start, ← hlength, List.take_left]
    exact hcontents

/-- A record and then a truth value for two numbers, beside the key and without
a line ending at the end. -/
theorem setList_setList_record :
    let t := "m:\n  k:  # n\n\n  - 1\n  - 2".toList
    let a := [ListItem.record [(['x'], .str ['y']), (['z'], .null)]]
    let b := [ListItem.scalar (.bool true)]
    ∃ u w, setList t ['m'] ['k'] a = .ok (some u) ∧ setList u ['m'] ['k'] b = .ok (some w) ∧
      setList t ['m'] ['k'] b = .ok (some w) ∧
      u = "m:\n  k:  # n\n\n  - x: \"y\"\n    z: null".toList ∧
      w = "m:\n  k:  # n\n\n  - true".toList ∧
      (Outline.ofText u).body 1 5 .sequence = ⟨⟨3, 5⟩, 2⟩ := by
  intro t a b
  have hlocate : (Outline.ofText t).locate ['m'] ['k'] = .ok (⟨0, 5⟩, 1) := by decide
  have hkey : keyLine (Outline.ofText t) 1 ['m'] ['k'] =
      .ok (.ofLine ⟨1, 3, "  k:  # n".toList, .lf⟩, ⟨"  k:".toList, [], [], "  # n".toList⟩) := by
    decide
  have hbody : (Outline.ofText t).body 1 5 .sequence = ⟨⟨3, 5⟩, 2⟩ := by decide
  have htidy : ∀ item ∈ a, item.Tidy := List.forall_mem_singleton.mpr (.record (by simp))
  obtain ⟨u, w, hfirst, hsecond, honce, -⟩ := setList_setList hlocate hkey rfl hbody (by decide)
    (a := a) (b := b) (by simp [a]) (by simp [b]) htidy
  have hu : setList t ['m'] ['k'] a =
      .ok (some "m:\n  k:  # n\n\n  - x: \"y\"\n    z: null".toList) := by
    decide
  have hw : setList t ['m'] ['k'] b = .ok (some "m:\n  k:  # n\n\n  - true".toList) := by decide
  obtain rfl := Option.some.inj (Except.ok.inj (hfirst.symm.trans hu))
  obtain rfl := Option.some.inj (Except.ok.inj (honce.symm.trans hw))
  exact ⟨_, _, hfirst, hsecond, honce, rfl, rfl, by decide⟩

end Patch

end Marginalia.Yaml

import Marginalia.Proofs.Yaml.BlocksInPlace
import Marginalia.Proofs.Yaml.Names
import Marginalia.Proofs.Yaml.Notes

/-!
# A reorder in its place

An order list and the map of its flags are written anew, each name with the
comment that it had.  When the reader finds both blocks where the patcher looks
for them, and every name is read back as an item and as a key, the form shows
the entries that were written, in their order.
-/

namespace Marginalia.Yaml

namespace Scan

/-- A comment in a text that may stand in a document. -/
theorem IsNote.isInlineNote {t note : Text} (h : IsNote note)
    (hall : ∀ c ∈ t, Source.isAllowed c = true) (hmem : note ⊆ t) : IsInlineNote note where
  isNote := h
  inline c hc := by
    have hends := endsLine_of_isNote h c hc
    simp only [Source.endsLine, Source.isBreak, Bool.or_eq_false_iff] at hends
    simp [Source.isInline, hall c (hmem hc), hends]

end Scan

namespace Patch

open Scan (IsNote IsInlineNote)

/-! ## Both blocks -/

/-- An order list and its flags in their places, one above the other. -/
inductive OrderInPlace (t module orderPath mapPath : Text)
  | orderAbove (f : BlocksInPlace t module .sequence .mapping orderPath mapPath)
  | flagsAbove (f : BlocksInPlace t module .mapping .sequence mapPath orderPath)

variable {t module orderPath mapPath : Text}

namespace OrderInPlace

def order : OrderInPlace t module orderPath mapPath → BlockSite t .sequence
  | orderAbove f => f.upper
  | flagsAbove f => f.lower

def flags : OrderInPlace t module orderPath mapPath → BlockSite t .mapping
  | orderAbove f => f.lower
  | flagsAbove f => f.upper

variable (f : OrderInPlace t module orderPath mapPath)

theorem located : ∃ range, (Outline.ofText t).locate module orderPath = .ok (range, f.order.index) ∧
    (Outline.ofText t).locate module mapPath = .ok (range, f.flags.index) ∧
    (Outline.ofText t).body f.order.index range.stop .sequence = f.order.body ∧
    (Outline.ofText t).body f.flags.index range.stop .mapping = f.flags.body := by
  cases f with
  | orderAbove f => exact f.located
  | flagsAbove f =>
      obtain ⟨range, hupper, hlower, hupperBody, hlowerBody⟩ := f.located
      exact ⟨range, hlower, hupper, hlowerBody, hupperBody⟩

theorem admits : admitsBlock '[' f.order.key = true ∧ admitsBlock '\x7b' f.flags.key = true := by
  cases f with
  | orderAbove f => exact ⟨f.upperAdmits, f.lowerAdmits⟩
  | flagsAbove f => exact ⟨f.lowerAdmits, f.upperAdmits⟩

include f in
theorem isAllowed : ∀ c ∈ t, Source.isAllowed c = true := by
  cases f with
  | orderAbove f => exact Token.isAllowed_of_ofText f.tokens
  | flagsAbove f => exact Token.isAllowed_of_ofText f.tokens

def orderNote (name : Text) : Text :=
  noteOf (orderNotes (Outline.ofText t) f.order.body) name

def flagNote (name : Text) : Text :=
  noteOf (flagNotes (Outline.ofText t) f.flags.body) name

include f in
theorem isInlineNote_noteOf (kind : BodyKind) {body : Body} {name : Text}
    (h : IsNote (noteOf (notes kind (Outline.ofText t) body) name)) :
    IsInlineNote (noteOf (notes kind (Outline.ofText t) body) name) := by
  refine h.isInlineNote f.isAllowed ?_
  rcases noteOf_cases (notes kind (Outline.ofText t) body) name with
    ⟨e, he, -, hnote⟩ | ⟨-, hnone⟩
  · rw [hnote]
    exact subset_of_mem_notes he
  · rw [hnone]
    exact List.nil_subset _

theorem isInlineNote_orderNote {name : Text} (h : IsNote (f.orderNote name)) :
    IsInlineNote (f.orderNote name) :=
  f.isInlineNote_noteOf .sequence h

theorem isInlineNote_flagNote {name : Text} (h : IsNote (f.flagNote name)) :
    IsInlineNote (f.flagNote name) :=
  f.isInlineNote_noteOf .mapping h

theorem reorder_eq_ok {entries : List (Text × Bool)} {order : ReadBlock .sequence}
    {flags : ReadBlock .mapping}
    (horder : order.lines = orderLines (Outline.ofText t) f.order.body entries)
    (hflags : flags.lines = flagLines (Outline.ofText t) f.flags.body entries) :
    reorder t module orderPath mapPath entries =
      .ok (f.order.edits order ++ f.flags.edits flags) := by
  obtain ⟨range, horderLocated, hmapLocated, horderBody, hmapBody⟩ := f.located
  obtain ⟨horderAdmits, hmapAdmits⟩ := f.admits
  rw [reorder]
  refine bind_eq_ok_iff.mpr ⟨_, horderLocated, bind_eq_ok_iff.mpr ⟨_, hmapLocated, ?_⟩⟩
  refine bind_eq_ok_iff.mpr ⟨_, keyLine_eq_ok_iff.mpr ⟨f.order.lineAt, f.order.parts⟩, ?_⟩
  refine bind_eq_ok_iff.mpr ⟨_, keyLine_eq_ok_iff.mpr ⟨f.flags.lineAt, f.flags.parts⟩, ?_⟩
  simp only [horderAdmits, hmapAdmits, Bool.not_true, Bool.false_eq_true, if_false, horderBody,
    hmapBody]
  rw [BlockSite.edits, BlockSite.edits, horder, hflags]
  rfl

theorem exists_lookup {root : Value} (hroot : Value.ofText t = .ok root)
    (order : ReadBlock .sequence) (flags : ReadBlock .mapping) (horder : order.levels ≤ 1)
    (hflags : flags.levels ≤ 1) :
    ∃ u root', Edit.applyAll? (f.order.edits order ++ f.flags.edits flags) t = some u ∧
      Value.ofText u = .ok root' ∧ root'.lookup module orderPath = some order.value ∧
      root'.lookup module mapPath = some flags.value ∧
      ∀ other, other ≠ module → root'.get? other = root.get? other := by
  cases f with
  | orderAbove f => exact exists_lookup_of_blocksInPlace f hroot horder hflags (Or.inl rfl)
  | flagsAbove f =>
      obtain ⟨u, root', happly, hread, hupper, hlower, hother⟩ :=
        exists_lookup_of_blocksInPlace f hroot hflags horder (Or.inr rfl)
      exact ⟨u, root', happly, hread, hlower, hupper, hother⟩

end OrderInPlace

/-- A reorder in its place: the text parses, the form shows the entries, and the
other modules keep their values. -/
theorem exists_orderedFlags_of_orderInPlace (f : OrderInPlace t module orderPath mapPath)
    {root : Value} (hroot : Value.ofText t = .ok root) {entries : List (Text × Bool)}
    (hdistinct : (entries.map Prod.fst).Nodup) (hnames : ∀ e ∈ entries, Scalar.ReadsName e.1)
    (hnotes : ∀ e ∈ entries, IsNote (f.orderNote e.1) ∧ IsNote (f.flagNote e.1)) :
    ∃ es u root', reorder t module orderPath mapPath entries = .ok es ∧
      Edit.applyAll? es t = some u ∧ Value.ofText u = .ok root' ∧
      root'.orderedFlags module orderPath mapPath = entries ∧
      ∀ other, other ≠ module → root'.get? other = root.get? other := by
  obtain ⟨rs, hrs, hitems, hmeans⟩ := exists_readItems_of_names hnames fun e he =>
    f.isInlineNote_orderNote (hnotes e he).1
  obtain ⟨fs, hfs, hkeys, hvalues⟩ := exists_readEntries_of_names hnames fun e he =>
    f.isInlineNote_flagNote (hnotes e he).2
  let order := ReadBlock.ofItems rs 0 hmeans
  let flags := ReadBlock.ofEntries fs (by rwa [hkeys])
  obtain ⟨u, root', happly, hread, horder, hmap, hother⟩ :=
    f.exists_lookup hroot order flags (Nat.le_refl 1) (Nat.le_refl 1)
  have hlookupOrder : root'.lookup module orderPath =
      some (.seq (entries.map fun e => .str e.1)) := by rw [horder, ← hitems]; rfl
  have hlookupMap : root'.lookup module mapPath =
      some (.map (entries.map fun e => (.str e.1, .bool e.2))) := by rw [hmap, ← hvalues]; rfl
  exact ⟨_, u, root', f.reorder_eq_ok hrs hfs, happly, hread,
    Value.orderedFlags_eq hdistinct hlookupOrder hlookupMap, hother⟩

/-- A document with an order list, a comment in it, and the flags below. -/
def ranked : Text :=
  ["m:", "  o:", "    - a # n", "    - b", "  f:", "    a: true", "    b: false", "z: 2"].flatMap
    (·.toList ++ ['\n'])

/-- The reader behind the key of the order list. -/
def rankedState : Scan where
  cursor := ⟨[], 1, 4⟩
  indents := [2, 0]
  candidate := none
  outer := []
  keyAllowed := false
  tokens := [.value, .scalar true ['o'], .key, .blockMappingStart, .value, .scalar true ['m'], .key,
    .blockMappingStart]

def flaggedState : Scan where
  cursor := ⟨[], 0, 4⟩
  indents := [2, 0]
  candidate := none
  outer := []
  keyAllowed := false
  tokens := [.value, .scalar true ['f'], .key]

theorem exists_orderInPlace_ranked : ∃ f : OrderInPlace ranked ['m'] ['o'] ['f'],
    f.order.body = ⟨⟨2, 4⟩, 4⟩ ∧ f.flags.body = ⟨⟨5, 7⟩, 4⟩ := by
  have hkey : ∀ c ∈ ['m', 'f', 'a', 'b'], IsPlainKey [c] := by
    intro c hc
    simp only [List.mem_cons, List.not_mem_nil, or_false] at hc
    rcases hc with rfl | rfl | rfl | rfl <;>
      exact ⟨List.cons_ne_nil _ _, List.all_eq_true.mp rfl, by decide, by decide, by decide⟩
  let name (c : Char) (hc : c ∈ ['m', 'f', 'a', 'b']) : ReadScalar :=
    Scalar.ofNumberWord (hkey c hc).isNumberWord (hkey c hc).ofPlain_eq
  let flag (b : Bool) : ReadScalar :=
    Scalar.ofNumberWord (Scalar.isNumberWord_render (.bool b) .plain)
      (Scalar.ofPlain_render (.bool b) .plain)
  let item (c : Char) (hc : c ∈ ['m', 'f', 'a', 'b']) : ReadItem :=
    .ofScalar (name c hc) [] (Or.inl rfl) (by simp)
  let entry (c : Char) (hc : c ∈ ['m', 'f', 'a', 'b']) (b : Bool) : ReadEntry :=
    ⟨.ofBare (hkey c hc).readsKey, flag b, [], Or.inl rfl, by simp⟩
  let order : ReadBlock .sequence := .ofItems [item 'a' (by simp), item 'b' (by simp)] 1
    fun r _ => r.means
  let flags : ReadBlock .mapping :=
    .ofEntries [entry 'a' (by simp) true, entry 'b' (by simp) false]
      (show [['a'], ['b']].Nodup by decide)
  have hfew : ((Node.ofText ranked).toOption.all fun d =>
      (Value.ofDocument ⟨d.root, d.events - (4 + 6)⟩).toOption.isSome) = true := by decide +kernel
  refine ⟨.orderAbove {
    upper := {
      index := 1
      line := ⟨⟨1, 3, "  o:".toList, .lf⟩, 2, .key ['o'] 3⟩
      key := ⟨"  o:".toList, [], [], []⟩
      state := rankedState
      indent := 2
      body := ⟨⟨2, 4⟩, 4⟩
      lineAt := by decide +kernel
      parts := by decide +kernel
      found := ⟨7, by decide, by decide +kernel⟩
      awaits := ⟨rfl, rfl, rfl, rfl, rfl, by decide⟩
      gap := by simp
      comment := Or.inl rfl
      deep := show 2 ≤ 4 by decide
      quiet := by decide +kernel }
    lower := {
      index := 4
      line := ⟨⟨4, 28, "  f:".toList, .lf⟩, 2, .key ['f'] 3⟩
      key := ⟨"  f:".toList, [], [], []⟩
      state := flaggedState
      indent := 2
      body := ⟨⟨5, 7⟩, 4⟩
      lineAt := by decide +kernel
      parts := by decide +kernel
      found := ⟨7, by decide, by decide +kernel⟩
      awaits := ⟨rfl, rfl, rfl, rfl, rfl, by decide⟩
      gap := by simp
      comment := Or.inl rfl
      deep := show 2 < 4 by decide
      quiet := by decide +kernel }
    upperValue := [.blockSequenceStart, .blockEntry, .scalar true ['a'], .blockEntry,
      .scalar true ['b'], .blockEnd]
    lowerValue := [.blockMappingStart, .key, .scalar true ['a'], .value,
      .scalar true "true".toList, .key, .scalar true ['b'], .value, .scalar true "false".toList,
      .blockEnd]
    upperSize := 4
    lowerSize := 6
    later := [.blockEnd, .key, .scalar true ['z'], .value, .scalar true ['2'], .blockEnd]
    located := ⟨⟨0, 7⟩, by decide +kernel, by decide +kernel, by decide +kernel, by decide +kernel⟩
    upperAdmits := by decide
    lowerAdmits := by decide
    block := by decide
    below := by decide
    outside := by decide
    around := by decide
    upperRoom := by decide
    lowerRoom := by decide
    upperThrough := by decide +kernel
    lowerThrough := by decide +kernel
    upperLeads := Node.leadsTo_first (Value.ofPlain_of_isAlpha (by decide) (by decide) (by decide))
      (Value.ofPlain_of_isAlpha (by decide) (by decide) (by decide))
    lowerLeads := by
      have hname : ∀ c ∈ ['m', 'f', 'a', 'b'],
          Value.ofScalar false none true [c] = .ok (.str [c]) := fun c hc => (hkey c hc).ofPlain_eq
      refine ⟨_, Or.inl rfl, Node.Leads.inside (hname 'm' (by simp)) rfl ?_⟩
      exact Node.Leads.past_value (order.isValue true _ rfl) rfl (show 3 * 6 ≤ 47 by decide)
        (Node.Leads.here (hname 'f' (by simp)) rfl)
    next := by decide +kernel
    upperShallow := by decide +kernel
    upperNoTab := by decide +kernel
    lowerShallow := by decide +kernel
    lowerNoTab := by decide +kernel
    ends := by decide +kernel
    tokens := by decide +kernel
    upperFills := fun rest => Node.IsValue.fillsValue (order.isValue true _ rfl) order.anchored
    lowerFills := Node.IsValue.fillsValue (flags.isValue true _ rfl) flags.anchored
    few := by
      intro d hd
      rw [hd] at hfew
      exact isSome_toOption_iff.mp hfew }, rfl, rfl⟩

theorem exists_orderedFlags_of_orderInPlace_ranked :
    let entries : List (Text × Bool) := [(['b'], true), (['a'], false)]
    let after :=
      "m:\n  o:\n    - b\n    - a # n\n  f:\n    b: true\n    a: false\nz: 2\n".toList
    ∃ es root', reorder ranked ['m'] ['o'] ['f'] entries = .ok es ∧
      Edit.applyAll? es ranked = some after ∧ Value.ofText after = .ok root' ∧
      root'.orderedFlags ['m'] ['o'] ['f'] = entries := by
  intro entries after
  obtain ⟨f, horder, hflags⟩ := exists_orderInPlace_ranked
  obtain ⟨root, hroot⟩ : ∃ root, Value.ofText ranked = .ok root :=
    isSome_toOption_iff.mp (by decide +kernel)
  have hnames : ∀ e ∈ entries, Scalar.ReadsName e.1 := by
    intro e he
    simp only [entries, List.mem_cons, List.not_mem_nil, or_false] at he
    rcases he with rfl | rfl <;>
      exact ⟨List.forall_mem_singleton.mpr (by decide), List.forall_mem_singleton.mpr (by decide),
        by decide, fun _ => ⟨List.forall_mem_singleton.mpr (by decide), by decide, by decide,
          by decide, rfl, Or.inr (by decide)⟩⟩
  have hnote : IsNote [' ', '#', ' ', 'n'] := by
    refine Or.inr ⟨[' '], [' ', 'n'], rfl, by simp, by simp [Source.isBlank], ?_⟩
    simp [Source.endsLine, Source.isBreak]
  have hnotes : ∀ e ∈ entries, IsNote (f.orderNote e.1) ∧ IsNote (f.flagNote e.1) := by
    intro e he
    rw [OrderInPlace.orderNote, OrderInPlace.flagNote, horder, hflags]
    simp only [entries, List.mem_cons, List.not_mem_nil, or_false] at he
    rcases he with rfl | rfl
    · exact ⟨Or.inl (by decide +kernel), Or.inl (by decide +kernel)⟩
    · have ha : noteOf (orderNotes (Outline.ofText ranked) ⟨⟨2, 4⟩, 4⟩) ['a'] =
          [' ', '#', ' ', 'n'] := by decide +kernel
      exact ⟨ha ▸ hnote, Or.inl (by decide +kernel)⟩
  obtain ⟨es, u, root', hreorder, happly, hread, hentries, -⟩ :=
    exists_orderedFlags_of_orderInPlace f hroot (show (entries.map Prod.fst).Nodup by decide) hnames
      hnotes
  have htext : (reorder ranked ['m'] ['o'] ['f'] entries).toOption.bind
      (Edit.applyAll? · ranked) = some after := by decide +kernel
  rw [hreorder] at htext
  obtain rfl : u = after := Option.some.inj (happly.symm.trans htext)
  exact ⟨es, root', hreorder, happly, hread, hentries⟩

/-- A name between quotes that spells a truth value bare: it is written bare,
and the form shows only the other name. -/
theorem orderedFlags_ne_of_quoted_word :
    let t := "m:\n  o:\n    - \"true\"\n    - a\n  f:\n    \"true\": true\n    a: true\n".toList
    let show_ (t : Text) : Option (List (Text × Bool)) :=
      (Value.ofText t).toOption.map (·.orderedFlags ['m'] ['o'] ['f'])
    let entries : List (Text × Bool) := [(['a'], true), ("true".toList, false)]
    show_ t = some [("true".toList, true), (['a'], true)] ∧
      ∃ es u, reorder t ['m'] ['o'] ['f'] entries = .ok es ∧ Edit.applyAll? es t = some u ∧
        u = "m:\n  o:\n    - a\n    - true\n  f:\n    a: true\n    true: false\n".toList ∧
        show_ u = some [(['a'], true)] := by
  intro t show_ entries
  obtain ⟨es, hreorder⟩ : ∃ es, reorder t ['m'] ['o'] ['f'] entries = .ok es :=
    isSome_toOption_iff.mp (by decide +kernel)
  have htext : (reorder t ['m'] ['o'] ['f'] entries).toOption.bind (Edit.applyAll? · t) = some
      "m:\n  o:\n    - a\n    - true\n  f:\n    a: true\n    true: false\n".toList := by
    decide +kernel
  rw [hreorder] at htext
  exact ⟨by decide +kernel, es, _, hreorder, htext, rfl, by decide +kernel⟩

end Patch

end Marginalia.Yaml

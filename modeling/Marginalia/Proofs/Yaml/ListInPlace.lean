import Marginalia.Proofs.Yaml.BlockSite
import Marginalia.Proofs.Yaml.InPlace

/-!
# A list with other items

The patcher writes a list below its key and takes away the lines of the old one.
The document then has the new items at the path, and its other modules keep
their values, when the reader finds the old list where the patcher looks for it:
on the line of the key and in the lines of the body.
-/

namespace Marginalia.Yaml

open Source (atGap isBlank hang isPrintable withLineFeeds)

namespace Patch

/-- A list that the reader finds where the patcher looks for it: on the line of
its key and in the lines of its body, inside mappings without anchors and
tags. -/
structure ListInPlace (t module path : Text) extends KeyInPlace t module path where
  body : Body
  /-- What the reader takes for the value. -/
  value : List Token
  /-- The number of events of the value. -/
  size : Nat
  /-- What the reader finds beneath the body. -/
  later : List Token
  admits : admitsBlock '[' key = true
  found : ∃ range, (Outline.ofText t).locate module path = .ok (range, index) ∧
    (Outline.ofText t).body index range.stop .sequence = body
  /-- The items are no less deep than the keys of the mapping. -/
  deep : indent ≤ body.indent
  /-- The path leaves room for a list of records. -/
  room : (Outline.segments path).length + 3 ≤ Value.nestingLimit
  /-- The reader finds nothing above the body. -/
  quiet : (Scan.skipGap false false false 0 0
    (withLineFeeds (aboveBody t index line.line body))).1.rest = []
  /-- What stands beneath the body is no deeper than the key. -/
  shallow : (Scan.skipGap false true false 0 0 (withLineFeeds (beneathBody t body))).1.rest = [] ∨
    (Scan.skipGap false true false 0 0 (withLineFeeds (beneathBody t body))).1.column ≤ indent
  head?_ne_tab : (Scan.skipGap false true false 0 0
    (withLineFeeds (beneathBody t body))).1.rest.head? ≠ some '\t'
  /-- The value ends with the body. -/
  ends : (Scan.inBlock ⟨withLineFeeds (beneathBody t body), 0, 0⟩ state.indents true []).finish =
    .ok later.reverse
  tokens : Token.ofText t = .ok (state.tokens.reverse ++ (value ++ later))
  fills : Node.FillsValue size value later
  /-- Without the value, too, aliases are followed no more often than the
  document allows. -/
  few : ∀ d, Node.ofText t = .ok d → ∃ v, Value.ofDocument ⟨d.root, d.events - size⟩ = .ok v

variable {t module path : Text}

namespace ListInPlace

variable (f : ListInPlace t module path)

def toBlockSite : BlockSite t .sequence where
  index := f.index
  line := f.line
  key := f.key
  state := f.state
  indent := f.indent
  body := f.body
  lineAt := (keyLine_eq_ok_iff.mp f.keyed).1
  parts := (keyLine_eq_ok_iff.mp f.keyed).2
  found := by
    obtain ⟨range, hlocate, hbody⟩ := f.found
    exact ⟨range.stop, (Outline.locate_bounds hlocate).2.1, hbody⟩
  awaits := f.awaits
  gap := f.gap
  comment := f.comment
  deep := f.deep
  quiet := f.quiet

/-- With another block the tokens are the same around it. -/
theorem ofText_applyAll (b : ReadBlock .sequence) :
    Token.ofText (Edit.applyAll (blockEdits (Outline.ofText t) f.line f.key f.body b.lines
        ['[', ']']) t) =
      .ok (f.state.tokens.reverse ++ (b.written (decide (f.indent < f.body.indent)) ++
        f.later)) := by
  obtain ⟨stop, hstop, hbody⟩ := f.toBlockSite.found
  obtain ⟨text, htext, happly⟩ :=
    exists_applyAll_blockEdits f.toBlockSite.lineAt hstop hbody f.key b.lines ['[', ']']
  have hbehind : Edit.applyAll (blockEdits (Outline.ofText t) f.line f.key f.body b.lines
      ['[', ']']) t = f.behind (f.toBlockSite.written b text (beneathBody t f.body)) := by
    refine happly.trans ?_
    rw [KeyInPlace.behind, BlockSite.written, KeyLine.withValue]
    split <;> simp [KeyLine.gapText, BodyKind.empty, BlockSite.above, toBlockSite]
  obtain ⟨-, hcomment, habove, hbeneath⟩ :=
    f.toBlockSite.isAllowed_around (Token.isAllowed_of_ofText f.tokens)
  have hallowed : ∀ c ∈ f.toBlockSite.written b text (beneathBody t f.body),
      Source.isAllowed c = true :=
    f.toBlockSite.isAllowed_written htext hcomment habove hbeneath
  obtain ⟨hopens, hfinish⟩ := f.toBlockSite.finish_written htext id
    (Scan.follows_lineFeed f.shallow f.head?_ne_tab)
  have hends : f.toBlockSite.goesOn (beneathBody t f.body)
      ((b.written (decide (f.indent < f.body.indent))).reverse ++ f.state.tokens) =
        .ok (f.later.reverse ++ ((b.written (decide (f.indent < f.body.indent))).reverse ++
          f.state.tokens)) :=
    congrArg (Except.map (· ++ _)) f.ends
  rw [hbehind, f.ofText_behind f.tokens hallowed hopens (hfinish.trans hends)]
  simp

end ListInPlace

/-- Items that are read back in the place of a list: the text parses, the list
has the values of the items, and the other modules keep their values. -/
theorem exists_lookup_of_listInPlace (f : ListInPlace t module path) {root : Value}
    {items : List ListItem} (hroot : Value.ofText t = .ok root)
    (hitems : ∀ item ∈ items, item.Returns) :
    ∃ es u root', replaceList t module path items = .ok es ∧ Edit.applyAll? es t = some u ∧
      Value.ofText u = .ok root' ∧
      root'.lookup module path = some (.seq (items.map ListItem.value)) ∧
      ∀ other, other ≠ module → root'.get? other = root.get? other := by
  obtain ⟨rs, hlines, hvalues⟩ := exists_readItems hitems
  let b := ReadBlock.ofItems rs 1 fun r _ => r.means
  obtain ⟨range, hlocate, hbody⟩ := f.found
  have hline := (keyLine_eq_ok_iff.mp f.keyed).1
  have hstop := (Outline.locate_bounds hlocate).2.1
  let es := blockEdits (Outline.ofText t) f.line f.key f.body b.lines ['[', ']']
  have hreplace : replaceList t module path items = .ok es := by
    rw [replaceList, ← hlines]
    refine bind_eq_ok_iff.mpr ⟨_, hlocate, bind_eq_ok_iff.mpr ⟨_, f.keyed, ?_⟩⟩
    simp only [f.admits, Bool.not_true, Bool.false_eq_true, if_false, hbody]
    rfl
  have hfits := fitsSorted_blockEdits .sequence hline hstop f.key b.lines ['[', ']']
  rw [hbody] at hfits
  have happly : Edit.applyAll? es t = some (Edit.applyAll es t) := if_pos hfits
  have hnew : Token.ofText (Edit.applyAll es t) = _ := f.ofText_applyAll b
  have htokens := f.tokens
  rw [Value.ofText_eq, htokens] at hroot
  have hlevels : 2 ≤ Value.nestingLimit - (module :: Outline.segments path).length := by
    have hroom := f.room
    rw [List.length_cons]
    omega
  have hfew : ∀ d left, Node.readDocument (f.state.tokens.reverse ++ (f.value ++ f.later)) =
      .ok (d, left) → ∃ v, Value.ofDocument ⟨d.root, d.events - (f.size - b.size)⟩ = .ok v := by
    intro d left hread
    obtain ⟨v, hv⟩ := f.few d (Value.ofText_of_ofTokens htokens hroot hread)
    exact ⟨v, Value.ofDocument_of_le hv (by omega)⟩
  obtain ⟨old, vs, vs', rfl, hdistinct, hdiffer, hroot'⟩ := Value.exists_ofTokens_of_leadsTo
    f.leads f.fills (fun hlater => b.isValue _ f.later hlater) b.anchored b.means hlevels hfew hroot
  refine ⟨es, _, .map vs', hreplace, happly, ?_, ?_, ?_⟩
  · rw [Value.ofText_eq]
    exact bind_eq_ok_iff.mpr ⟨_, hnew, hroot'⟩
  · rw [Value.distinct_congr hdiffer.map_fst_eq] at hdistinct
    have hlookup : (Value.map vs').lookup module path = some (.seq (rs.map ReadItem.value)) :=
      hdiffer.foldl_get?_eq hdistinct
    rw [hlookup, hvalues]
  · intro other hother
    exact hdiffer.get?_eq_of_ne hother

/-- Items in the place of a list: the text parses, the list has those items, and
the other modules keep their values. -/
theorem exists_ofText_of_listInPlace (f : ListInPlace t module path) {root : Value}
    {items : List ListItem} (hroot : Value.ofText t = .ok root)
    (hitems : ∀ item ∈ items, item.IsPlain) :
    ∃ es u root', replaceList t module path items = .ok es ∧ Edit.applyAll? es t = some u ∧
      Value.ofText u = .ok root' ∧ root'.listItems module path = items ∧
      ∀ other, other ≠ module → root'.get? other = root.get? other := by
  have hreturns : ∀ item ∈ items, item.Returns := fun item hitem => (hitems item hitem).returns
  obtain ⟨es, u, root', hreplace, happly, hread, hlookup, hother⟩ :=
    exists_lookup_of_listInPlace f hroot hreturns
  refine ⟨es, u, root', hreplace, happly, hread, ?_, hother⟩
  rw [Value.listItems, hlookup]
  exact Value.filterMap_listItem? hreturns

/-- A document with a list and a comment behind its key, and text on both
sides. -/
def listed : Text :=
  "a: 1\nm:\n  j: x\n  k: # n\n    - 1\nz: 2\n".toList

theorem nonempty_listInPlace_listed : Nonempty (ListInPlace listed ['m'] ['k']) := by
  obtain ⟨r, htokens, hsize⟩ : ∃ r : ReadItem, r.tokens = [.scalar true ['1']] ∧ r.size = 1 := by
    have hword := Text.isNumberWord_ofInt 1
    have hvalue : Value.ofPlain (Text.ofInt 1) = .ok (.int 1) :=
      Value.ofPlain_ofInt (by decide) (by decide)
    let x := Scalar.ofNumberWord hword hvalue
    exact ⟨.ofScalar x [] (Or.inl rfl) (by simp), rfl, rfl⟩
  have hfew : ((Node.ofText listed).toOption.all fun d =>
      (Value.ofDocument ⟨d.root, d.events - 3⟩).toOption.isSome) = true := by decide +kernel
  exact ⟨{
    index := 3
    line := ⟨⟨3, 15, "  k: # n".toList, .lf⟩, 2, .key ['k'] 3⟩
    key := ⟨"  k:".toList, [], [], " # n".toList⟩
    state := commentedState
    indent := 2
    located := ⟨⟨1, 5⟩, by decide +kernel⟩
    keyed := by decide +kernel
    through := by decide +kernel
    opens := by decide +kernel
    awaits := ⟨rfl, rfl, rfl, rfl, rfl, by decide⟩
    leads := leadsTo_commentedState
    gap := by simp
    comment := by
      refine Or.inr ⟨[' '], [' ', 'n'], rfl, by simp, by simp [isBlank], ?_⟩
      simp [Source.endsLine, Source.isBreak]
    body := ⟨⟨4, 5⟩, 4⟩
    value := listTokens true [r]
    size := 2 + Node.itemsSize [r]
    later := [.blockEnd, .key, .scalar true ['z'], .value, .scalar true ['2'], .blockEnd]
    admits := by decide
    found := ⟨⟨1, 5⟩, by decide +kernel, by decide +kernel⟩
    deep := by decide
    room := by decide
    quiet := by decide +kernel
    shallow := by decide +kernel
    head?_ne_tab := by decide +kernel
    ends := by decide +kernel
    tokens := by
      have hvalue : listTokens true [r] =
          [.blockSequenceStart, .blockEntry, .scalar true ['1'], .blockEnd] := by
        simp [listTokens, itemTokens, htokens]
      rw [hvalue]
      decide +kernel
    fills := Node.IsValue.fillsValue (Node.isValue_list (List.cons_ne_nil r []) true rfl)
      (Node.anchored_listNode [r])
    few := by
      intro d hd
      rw [hd] at hfew
      have hthree : 2 + Node.itemsSize [r] = 3 := by simp [Node.itemsSize, hsize]
      rw [hthree]
      exact isSome_toOption_iff.mp hfew }⟩

theorem exists_ofText_of_listInPlace_listed :
    let items : List ListItem :=
      [.record [(['u'], .str "x y".toList), (['v'], .str "1".toList)], .scalar (.bool true)]
    let after :=
      "a: 1\nm:\n  j: x\n  k: # n\n    - u: \"x y\"\n      v: \"1\"\n    - true\nz: 2\n".toList
    ∃ es root', replaceList listed ['m'] ['k'] items = .ok es ∧
      Edit.applyAll? es listed = some after ∧ Value.ofText after = .ok root' ∧
      root'.listItems ['m'] ['k'] = items := by
  intro items after
  obtain ⟨f⟩ := nonempty_listInPlace_listed
  obtain ⟨root, hroot⟩ : ∃ root, Value.ofText listed = .ok root :=
    isSome_toOption_iff.mp (by decide +kernel)
  have hplain : ∀ item ∈ items, item.IsPlain := by
    intro item hitem
    simp only [items, List.mem_cons, List.not_mem_nil, or_false] at hitem
    rcases hitem with rfl | rfl
    · refine @ListItem.IsPlain.record [(['u'], "x y".toList), (['v'], "1".toList)] ?_ (by decide) ?_
      · intro g hg
        simp only [List.mem_cons, List.not_mem_nil, or_false] at hg
        rcases hg with rfl | rfl <;>
          exact ⟨List.cons_ne_nil _ _, List.all_eq_true.mp rfl, by decide, by decide, by decide⟩
      · intro g hg
        simp only [List.mem_cons, List.not_mem_nil, or_false] at hg
        rcases hg with rfl | rfl <;> exact List.all_eq_true.mp (by decide)
    · exact ListItem.IsPlain.word (Scalar.IsWord.bool true)
  obtain ⟨es, u, root', hreplace, happly, hread, hlist, -⟩ :=
    exists_ofText_of_listInPlace f hroot hplain
  have htext : (replaceList listed ['m'] ['k'] items).toOption.bind (Edit.applyAll? · listed) =
      some after := by
    decide +kernel
  rw [hreplace] at htext
  obtain rfl : u = after := Option.some.inj (happly.symm.trans htext)
  exact ⟨es, root', hreplace, happly, hread, hlist⟩

/-- A list in flow style that goes on below the line of its key: the rest of it
stays below the new items, and the document does not parse. -/
theorem ofText_ne_ok_of_list_on_two_lines :
    let t := "m:\n  k: [a,\n    b]\n".toList
    let read (t : Text) : Option (List ListItem) :=
      (Value.ofText t).toOption.map (·.listItems ['m'] ['k'])
    read t = some [.scalar (.str ['a']), .scalar (.str ['b'])] ∧
      ∃ es u, replaceList t ['m'] ['k'] [.scalar (.int 1)] = .ok es ∧
        Edit.applyAll? es t = some u ∧ u = "m:\n  k:\n    - 1\n    b]\n".toList ∧
        ∀ root', Value.ofText u ≠ .ok root' := by
  intro t read
  have hreplace : replaceList t ['m'] ['k'] [.scalar (.int 1)] =
      .ok [⟨⟨3, 11⟩, "  k:".toList⟩, ⟨⟨12, 12⟩, "    - 1\n".toList⟩] := by
    decide +kernel
  refine ⟨by decide +kernel, _, _, hreplace, by decide +kernel, rfl, ?_⟩
  intro root' hroot'
  have hnone : (Value.ofText "m:\n  k:\n    - 1\n    b]\n".toList).toOption.isSome = false := by
    decide +kernel
  rw [hroot'] at hnone
  cases hnone

end Patch

end Marginalia.Yaml

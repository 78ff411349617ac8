import Marginalia.Proofs.Yaml.Patch
import Marginalia.Session.Documents

/-!
# A change stays inside its module

Whatever a change of the configuration form writes, and whatever the document
looks like, its edits lie in the lines of the module that it names.  What stands
above the module and what stands below it is the same text before and after.
-/

namespace Marginalia

namespace ConfigEdit

def module : ConfigEdit → Text
  | setField module _ _ => module
  | replaceList module _ _ => module
  | reorder module _ _ _ => module

end ConfigEdit

namespace Yaml

open Edit (Chain)

/-- The edits lie in the bytes of some lines. -/
def InLines (t : Text) (range : LineRange) (es : List Edit) : Prop :=
  ∀ e ∈ es, t.lineOffset range.start ≤ e.span.start ∧ e.span.start ≤ e.span.stop ∧
    e.span.stop ≤ t.lineOffset range.stop

theorem inLines_of_chain {t : Text} {range : LineRange} {index stop : Nat} {es : List Edit}
    (h : Chain (t.lineOffset index) (t.lineOffset stop) es) (hindex : range.start ≤ index)
    (hstop : stop ≤ range.stop) : InLines t range es := by
  intro e he
  exact (h.mono (Text.lineOffset_le_lineOffset hindex)
    (Text.lineOffset_le_lineOffset hstop)).within he

theorem inLines_blockEdits {t module path : Text} {range : LineRange} {index : Nat}
    {l : OutlineLine} {k : KeyLine} {kind : BodyKind} {rendered : List Text} {empty : Text}
    (hlocate : (Outline.ofText t).locate module path = .ok (range, index))
    (hline : (Outline.ofText t)[index]? = some l) :
    InLines t range (Patch.blockEdits (Outline.ofText t) l k
      ((Outline.ofText t).body index range.stop kind) rendered empty) := by
  obtain ⟨hstart, hindex, -⟩ := Outline.locate_bounds hlocate
  have hend := Patch.body_stop_bounds (Outline.ofText t) kind hindex
  exact inLines_of_chain (Patch.chain_blockEdits kind hline hindex k rendered empty) hstart hend.2

/-- Every change that is not refused found its module, and its edits lie in the
lines of it. -/
theorem inLines_edits {t : Text} {change : ConfigEdit} {es : List Edit}
    (h : change.edits t = .ok es) :
    ∃ range, (Outline.ofText t).module change.module = .ok range ∧ InLines t range es := by
  cases change with
  | setField module path value =>
      simp only [ConfigEdit.edits, Except.map] at h
      split at h
      · cases h
      · next e hset =>
          obtain ⟨range, index, l, k, hlocate, hkey, he⟩ :=
            Patch.exists_of_setScalar_eq_ok hset
          have hline := (Patch.keyLine_eq_ok_iff.mp hkey).1
          obtain ⟨hstart, hindex, -⟩ := Outline.locate_bounds hlocate
          refine ⟨range, (Outline.locate_eq_ok_iff.mp hlocate).1, ?_⟩
          rw [← Except.ok.inj h, he]
          exact inLines_of_chain (Patch.chain_contentSpan hline _) hstart hindex
  | replaceList module path items =>
      obtain ⟨range, index, l, k, hlocate, hkey, -, hes⟩ :=
        Patch.exists_of_replaceList_eq_ok h
      refine ⟨range, (Outline.locate_eq_ok_iff.mp hlocate).1, ?_⟩
      rw [hes]
      exact inLines_blockEdits hlocate (Patch.keyLine_eq_ok_iff.mp hkey).1
  | reorder module orderPath mapPath entries =>
      obtain ⟨range, orderIndex, range', mapIndex, orderLine, orderKey, mapLine, mapKey, horder,
        hmap, horderKey, hmapKey, hes⟩ := Patch.exists_of_reorder_eq_ok h
      have hmodule := (Outline.locate_eq_ok_iff.mp horder).1
      -- Both paths are searched in one module.
      obtain rfl : range = range' := by
        have hmodule' := (Outline.locate_eq_ok_iff.mp hmap).1
        rw [hmodule] at hmodule'
        exact Except.ok.inj hmodule'
      refine ⟨range, hmodule, ?_⟩
      intro e he
      rw [hes, List.mem_append] at he
      rcases he with he | he
      · exact inLines_blockEdits horder (Patch.keyLine_eq_ok_iff.mp horderKey).1 e he
      · exact inLines_blockEdits hmap (Patch.keyLine_eq_ok_iff.mp hmapKey).1 e he

/-- Edits in the bytes of some lines leave the lines above and below as they
are. -/
theorem exists_applyAll_eq_of_inLines {t : Text} {range : LineRange} {es : List Edit}
    (hrange : range.start ≤ range.stop) (h : InLines t range es) :
    ∃ inside, Edit.applyAll es t =
      Text.joinLines (t.lines.take range.start) ++ inside ++
        Text.joinLines (t.lines.drop range.stop) := by
  have hfront : t.lines.take range.stop =
      t.lines.take range.start ++ (t.lines.take range.stop).drop range.start := by
    have hsplit := List.take_append_drop range.start (t.lines.take range.stop)
    rw [List.take_take, Nat.min_eq_left hrange] at hsplit
    exact hsplit.symm
  have htext : t = Text.joinLines (t.lines.take range.start) ++
      Text.joinLines ((t.lines.take range.stop).drop range.start) ++
      Text.joinLines (t.lines.drop range.stop) := by
    rw [← Text.joinLines_append, ← hfront, Text.joinLines_take_append_drop]
  have hsize : (Text.joinLines (t.lines.take range.start) ++
      Text.joinLines ((t.lines.take range.stop).drop range.start)).size =
      t.lineOffset range.stop := by
    rw [← Text.joinLines_append, ← hfront, Text.lineOffset]
  obtain ⟨inside, hinside⟩ := Edit.exists_applyAll_eq
    (Text.joinLines (t.lines.drop range.stop)) (fun e he => (h e he).1)
    fun e he => (h e he).2.2.trans_eq hsize.symm
  rw [← htext] at hinside
  exact ⟨inside, hinside⟩

/-- The edits of a change lie in the lines of its module, and a text that they
give keeps every byte above the module as its start and every byte below it as
its end. -/
theorem edits_within_module {t : Text} {change : ConfigEdit} {es : List Edit}
    (h : change.edits t = .ok es) :
    ∃ range, (Outline.ofText t).module change.module = .ok range ∧
      (∀ e ∈ es, t.lineOffset range.start ≤ e.span.start ∧ e.span.start ≤ e.span.stop ∧
        e.span.stop ≤ t.lineOffset range.stop) ∧
      ∀ u, Edit.applyAll? es t = some u →
        ∃ inside, u = Text.joinLines (t.lines.take range.start) ++ inside ++
          Text.joinLines (t.lines.drop range.stop) := by
  obtain ⟨range, hmodule, hlines⟩ := inLines_edits h
  refine ⟨range, hmodule, hlines, ?_⟩
  intro u hu
  have hrange := (Outline.module_bounds hmodule).1
  obtain ⟨inside, hinside⟩ := exists_applyAll_eq_of_inLines (Nat.le_of_lt hrange) hlines
  refine ⟨inside, ?_⟩
  rw [Edit.applyAll?] at hu
  split at hu
  · rw [← Option.some.inj hu, hinside]
  · cases hu

/-- A field between two other modules. -/
theorem edits_within_module_rss :
    ∃ range inside,
      (ConfigEdit.setField "rss".toList "on".toList (.bool true)).edits
        "a: 1\nrss:\n  on: false\nz: 2\n".toList = .ok [⟨⟨10, 21⟩, "  on: true".toList⟩] ∧
      (Outline.ofText "a: 1\nrss:\n  on: false\nz: 2\n".toList).module "rss".toList =
        .ok range ∧
      Edit.applyAll? [⟨⟨10, 21⟩, "  on: true".toList⟩]
          "a: 1\nrss:\n  on: false\nz: 2\n".toList =
        some (Text.joinLines
            ((Text.lines "a: 1\nrss:\n  on: false\nz: 2\n".toList).take range.start) ++
          inside ++ Text.joinLines
            ((Text.lines "a: 1\nrss:\n  on: false\nz: 2\n".toList).drop range.stop)) := by
  have hes : (ConfigEdit.setField "rss".toList "on".toList (.bool true)).edits
      "a: 1\nrss:\n  on: false\nz: 2\n".toList = .ok [⟨⟨10, 21⟩, "  on: true".toList⟩] := by
    decide
  obtain ⟨range, hmodule, -, happly⟩ := edits_within_module hes
  obtain ⟨inside, hinside⟩ := happly "a: 1\nrss:\n  on: true\nz: 2\n".toList (by decide)
  refine ⟨range, inside, hes, hmodule, ?_⟩
  rw [← hinside]
  decide

end Yaml

end Marginalia

import Marginalia.Proofs.Yaml.Blocks

/-!
# Names with flags

A reorder writes the names of an order list twice: as the items of the list and
as the keys of the map beside it.  A name that is read back in both places is
one that a form may show again, and the names with their flags are what the two
blocks say.
-/

namespace Marginalia.Yaml

open Source (isGap isInline)

/-! ## Names that are read back -/

/-- A string that is read back as an item and as a key, when it replaces a bare
one. -/
structure Scalar.ReadsName (s : Text) : Prop where
  allowed : ∀ c ∈ s, Source.isNoncharacter c = false
  oneLine : ∀ c ∈ s, Source.isSeparator c = false
  /-- A key has no more than 1024 characters. -/
  short : ((str s).render .plain).length ≤ 1024
  bare : needsQuotes s = false → ReadsBare s

namespace Scalar.ReadsName

variable {s : Text} (h : ReadsName s)

include h

theorem readsBack : ReadsBack .plain s where
  allowed := h.allowed
  quoted _ := readsQuoted_of_isSeparator h.oneLine
  bare _ := h.bare

theorem exists_readKey : ∃ k : ReadKey, k.written = (str s).render .plain ∧ k.name = s := by
  have hshort := h.short
  cases hquotes : needsQuotes s with
  | true =>
      have hrender : (str s).render .plain = doubleQuoted s := by rw [render, if_pos hquotes]
      rw [hrender] at hshort ⊢
      exact ⟨.ofQuoted h.oneLine hshort h.allowed, rfl, rfl⟩
  | false =>
      have hrender : (str s).render .plain = s := by rw [render, hquotes]; rfl
      have hbare := h.bare hquotes
      have hgap : ∀ c ∈ s, isGap c = false := fun c =>
        isGap_of_needsQuotes_eq_false hquotes h.oneLine
      have hopens : opensKey s = true := by
        have hopens := hbare.opens
        cases s with
        | nil => cases hopens
        | cons c r =>
            have hc := hgap c (List.mem_cons_self ..)
            simp only [opensBare, Bool.or_eq_true, Bool.not_eq_true', Bool.and_eq_true,
              List.isEmpty_eq_false_iff] at hopens
            rcases hopens with hindicator | ⟨hmark, hmore⟩
            · simp [opensKey, hc, hindicator]
            · obtain ⟨d, r, rfl⟩ := List.exists_cons_of_ne_nil hmore
              have hd := hgap d (by simp)
              rw [beq_iff_eq, beq_iff_eq] at hmark
              simp [opensKey, hmark, Source.atGap, hd]
      rw [hrender] at hshort ⊢
      refine ⟨.ofBare (readsKey_of_word hopens hgap ?_ hshort hbare.ofPlain_eq ?_), rfl, rfl⟩
      · exact fun hcolon => (of_needsQuotes_eq_false hquotes hcolon).1 rfl
      · exact fun c hc => Source.isInline_of_isControl (of_needsQuotes_eq_false hquotes hc).2.2
          (h.allowed c hc)

end Scalar.ReadsName

/-! ## Blocks of names -/

/-- A comment that may stand behind a value. -/
structure Scan.IsInlineNote (note : Text) : Prop where
  isNote : IsNote note
  inline : ∀ c ∈ note, isInline c = true

open Scan (IsInlineNote)

variable {entries : List (Text × Bool)} {note : Text → Text}

theorem exists_readItems_of_names (hnames : ∀ e ∈ entries, Scalar.ReadsName e.1)
    (hnotes : ∀ e ∈ entries, IsInlineNote (note e.1)) :
    ∃ rs : List ReadItem,
      itemLines rs = entries.map (fun e =>
        '-' :: ' ' :: (Scalar.str e.1).render .plain ++ note e.1) ∧
      rs.map ReadItem.value = entries.map (fun e => .str e.1) ∧
      ∀ r ∈ rs, Value.Means r.node 0 r.value := by
  induction entries with
  | nil => exact ⟨[], rfl, rfl, by simp⟩
  | cons e entries ih =>
      obtain ⟨rs, hlines, hvalues, hmeans⟩ := ih (fun g hg => hnames g (List.mem_cons_of_mem e hg))
        (fun g hg => hnotes g (List.mem_cons_of_mem e hg))
      obtain ⟨x, hwritten, hvalue⟩ := Scalar.exists_readScalar_of_readsBack
        (hnames e (List.mem_cons_self ..)).readsBack (by decide)
      obtain ⟨hnote, hinline⟩ := hnotes e (List.mem_cons_self ..)
      refine ⟨.ofScalar x (note e.1) hnote hinline :: rs, ?_, ?_, ?_⟩
      · rw [List.map_cons, ← hlines, ← hwritten]
        rfl
      · rw [List.map_cons, List.map_cons, hvalues, ← hvalue]
        rfl
      · exact List.forall_mem_cons.mpr ⟨Value.means_scalar x, hmeans⟩

theorem exists_readEntries_of_names (hnames : ∀ e ∈ entries, Scalar.ReadsName e.1)
    (hnotes : ∀ e ∈ entries, IsInlineNote (note e.1)) :
    ∃ es : List ReadEntry,
      entryLines es = entries.map (fun e => (Scalar.str e.1).render .plain ++ [':', ' '] ++
        (Scalar.bool e.2).render .plain ++ note e.1) ∧
      es.map (·.key.name) = entries.map Prod.fst ∧
      es.map ReadEntry.value = entries.map fun e => (.str e.1, .bool e.2) := by
  induction entries with
  | nil => exact ⟨[], rfl, rfl, rfl⟩
  | cons e entries ih =>
      obtain ⟨es, hlines, hkeys, hvalues⟩ := ih (fun g hg => hnames g (List.mem_cons_of_mem e hg))
        (fun g hg => hnotes g (List.mem_cons_of_mem e hg))
      obtain ⟨k, hkey, hname⟩ := (hnames e (List.mem_cons_self ..)).exists_readKey
      obtain ⟨x, hwritten, hvalue⟩ :=
        (@Scalar.Returns.word .plain _ _ (.bool e.2)).exists_readScalar (by decide)
      obtain ⟨hnote, hinline⟩ := hnotes e (List.mem_cons_self ..)
      let first : ReadEntry := ⟨k, x, note e.1, hnote, hinline⟩
      have hline : first.line = (Scalar.str e.1).render .plain ++ [':', ' '] ++
          (Scalar.bool e.2).render .plain ++ note e.1 := by
        rw [← hkey, ← hwritten]
        simp [first, ReadEntry.line]
      refine ⟨first :: es, ?_, ?_, ?_⟩
      · rw [List.map_cons, ← hlines, ← hline]
        rfl
      · rw [List.map_cons, List.map_cons, hkeys, ← hname]
      · rw [List.map_cons, List.map_cons, hvalues]
        congr 1
        rw [ReadEntry.value, hvalue]
        exact congrArg (fun name => (Value.str name, Value.bool e.2)) hname

/-! ## What the blocks say -/

namespace Value

/-- The flag of a name among different names. -/
theorem get?_of_mem_of_nodup (hdistinct : (entries.map Prod.fst).Nodup) {e : Text × Bool}
    (he : e ∈ entries) :
    (map (entries.map fun e => (str e.1, bool e.2))).get? e.1 = some (bool e.2) := by
  induction entries with
  | nil => cases he
  | cons d entries ih =>
      rw [List.map_cons, List.nodup_cons] at hdistinct
      rw [List.map_cons]
      rcases List.mem_cons.mp he with rfl | he
      · exact get?_map_cons_self _ _ _
      · have hne : str d.1 ≠ str e.1 := fun heq =>
          hdistinct.1 (str.inj heq ▸ List.mem_map_of_mem he)
        rw [get?_map_cons_of_ne hne, ih hdistinct.2 he]

/-- An order list of different names and a map with their flags are those
entries. -/
theorem orderedFlags_eq {root : Value} {module orderPath mapPath : Text}
    (hdistinct : (entries.map Prod.fst).Nodup)
    (horder : root.lookup module orderPath = some (.seq (entries.map fun e => .str e.1)))
    (hmap : root.lookup module mapPath = some (.map (entries.map fun e => (.str e.1, .bool e.2)))) :
    root.orderedFlags module orderPath mapPath = entries := by
  have hnames : (entries.map fun e => str e.1).filterMap str? = entries.map Prod.fst := by
    rw [List.filterMap_map, ← List.filterMap_eq_map]
    rfl
  rw [orderedFlags, horder, hmap]
  simp only [Option.map_some, untagged, hnames, List.map_map]
  refine (List.map_congr_left fun e he => ?_).trans (List.map_id entries)
  simp [get?_of_mem_of_nodup hdistinct he, flag?, untagged]

end Value

end Marginalia.Yaml

import Marginalia.Proofs.Version.Marker
import Mathlib.Data.Prod.Lex

/-!
# Documents checked against a manifest

Which lines of a manifest are lines for a name is told without reading the
manifest: the name, then an equals sign, with white space allowed around both.
The last such line decides the published version, the marker decides the version
of the document, and the status says how the two compare part by part.
-/

namespace Marginalia

/-! ## The order of versions -/

namespace Version

/-- The parts of a version, compared from the first on. -/
def parts (v : Version) : ℕ ×ₗ ℕ ×ₗ ℕ :=
  toLex (v.major.toNat, toLex (v.minor.toNat, v.patch.toNat))

theorem compare_toNat (m n : UInt32) : compare m n = compare m.toNat n.toNat := by
  simp only [compare, compareOfLessAndEq, UInt32.lt_iff_toNat_lt, UInt32.toNat_inj]

theorem order_eq_compare (a b : Version) : a.order b = compare a.parts b.parts := by
  rw [order, compare_toNat, compare_toNat, compare_toNat, Prod.Lex.compare_def]
  rfl

theorem parts_injective : Function.Injective parts := by
  rintro ⟨a, b, c⟩ ⟨d, e, f⟩ h
  simpa [parts, UInt32.toNat_inj] using h

end Version

namespace VersionStatus

/-- A document is outdated when its version comes before the published one. -/
theorem ofVersions_eq (a b : Version) :
    ofVersions a b =
      if a.parts < b.parts then outdated else if a = b then upToDate else ahead := by
  rw [ofVersions, a.order_eq_compare]
  split
  · next h => rw [if_pos (compare_lt_iff_lt.mp h)]
  · next h =>
      have hparts : a.parts = b.parts := compare_eq_iff_eq.mp h
      rw [if_neg (by rw [hparts]; exact lt_irrefl _), if_pos (Version.parts_injective hparts)]
  · next h =>
      have hgt : b.parts < a.parts := compare_gt_iff_gt.mp h
      rw [if_neg hgt.not_gt, if_neg]
      rintro rfl
      exact lt_irrefl _ hgt

end VersionStatus

/-! ## Lines for a name -/

namespace Text

theorem splitFirst?_eq_some_iff {sep : Char} {t left right : Text} :
    splitFirst? sep t = some (left, right) ↔ t = left ++ sep :: right ∧ sep ∉ left := by
  induction t generalizing left with
  | nil => simp [splitFirst?]
  | cons c t ih =>
      rw [splitFirst?]
      split
      · next hc =>
          subst hc
          cases left with
          | nil => simp
          | cons d left =>
              simp only [Option.some.injEq, Prod.mk.injEq, List.mem_cons, not_or]
              constructor
              · rintro ⟨⟨⟩, -⟩
              · rintro ⟨heq, hd, -⟩
                exact absurd (List.cons_eq_cons.mp heq).1 hd
      · next hc =>
          cases left with
          | nil => simp [hc]
          | cons d left =>
              rw [Option.map_eq_some_iff]
              constructor
              · rintro ⟨⟨l, r⟩, hsplit, ⟨⟩⟩
                obtain ⟨rfl, hleft⟩ := ih.mp hsplit
                exact ⟨rfl, List.not_mem_cons_of_ne_of_not_mem (Ne.symm hc) hleft⟩
              · rintro ⟨heq, hleft⟩
                obtain ⟨rfl, rfl⟩ := List.cons_eq_cons.mp heq
                exact ⟨(left, right), ih.mpr ⟨rfl, List.not_mem_of_not_mem_cons hleft⟩, rfl⟩

/-- White space around the trimmed text makes up the text. -/
theorem exists_append_trim (t : Text) : ∃ lead tail, isBlank lead = true ∧ isBlank tail = true ∧
    t = lead ++ trim t ++ tail := by
  refine ⟨t.takeWhile CharClass.isWhite, endWhite (trimStart t), ?_, ?_, ?_⟩
  · exact List.all_eq_true.mpr fun c hc => List.mem_takeWhile_imp hc
  · exact List.all_eq_true.mpr fun c hc => isWhite_of_mem_endWhite hc
  · rw [List.append_assoc, trim, trimEnd_append_endWhite]
    exact List.takeWhile_append_dropWhile.symm

end Text

namespace Manifest

/-- A line that gives a value to a name: the name, an equals sign and the value,
with white space allowed around the name.  The first equals sign ends the name,
and a line that begins with a number sign is a comment. -/
structure Gives (name value line : Text) : Prop where
  bare : Text.Bare name
  noSign : '=' ∉ name
  noComment : name.head? ≠ some '#'
  spaced : ∃ lead gap : Text, Text.isBlank lead = true ∧ Text.isBlank gap = true ∧
    line = lead ++ name ++ gap ++ '=' :: value

theorem sign_not_mem_of_isBlank {gap : Text} (h : Text.isBlank gap = true) : '=' ∉ gap :=
  fun hmem => absurd (List.all_eq_true.mp h '=' hmem) (by decide)

/-- Trimming such a line leaves the name, the sign and the value, and no
comment. -/
theorem Gives.exists_trim_eq {name value line : Text} (h : Gives name value line) :
    ∃ gap : Text, Text.isBlank gap = true ∧
      Text.trim line = name ++ gap ++ '=' :: Text.trimEnd value ∧
      (Text.trim line).head? ≠ some '#' := by
  obtain ⟨hbare, -, hcomment, lead, gap, hlead, hgap, rfl⟩ := h
  have hsign : CharClass.isWhite '=' = false := by decide
  have htrim : ∀ front : Text, (∀ c ∈ (front ++ '=' :: value).head?, CharClass.isWhite c = false) →
      Text.trim (front ++ '=' :: value) = front ++ '=' :: Text.trimEnd value := by
    intro front hfront
    rw [Text.trim, Text.trimStart_of_head? hfront, Text.trimEnd_append,
      Text.trimEnd_cons_of_not_white hsign]
    rfl
  rw [List.append_assoc, List.append_assoc,
    Text.trim_append_of_white (List.all_eq_true.mp hlead)]
  cases name with
  | nil =>
      -- The white space behind an empty name stands at the start of the line.
      have hline : Text.trim ([] ++ (gap ++ '=' :: value)) = '=' :: Text.trimEnd value := by
        rw [List.nil_append, Text.trim_append_of_white (List.all_eq_true.mp hgap)]
        exact htrim [] (by rintro c ⟨⟩; exact hsign)
      exact ⟨[], rfl, hline, by rw [hline]; rintro ⟨⟩⟩
  | cons c name =>
      have hline := htrim (c :: name ++ gap) (by rintro d ⟨⟩; exact hbare.1 c rfl)
      rw [List.append_assoc] at hline
      exact ⟨gap, hgap, by rw [hline, List.append_assoc], by rw [hline]; exact hcomment⟩

theorem Gives.entry?_eq {name value line : Text} (h : Gives name value line) :
    entry? line = some (name, Version.ofText value) := by
  obtain ⟨gap, hgap, htrim, hhead⟩ := h.exists_trim_eq
  have hsplit : Text.splitFirst? '=' (Text.trim line) =
      some (name ++ gap, Text.trimEnd value) := by
    rw [Text.splitFirst?_eq_some_iff, htrim]
    refine ⟨rfl, ?_⟩
    rw [List.mem_append, not_or]
    exact ⟨h.noSign, sign_not_mem_of_isBlank hgap⟩
  have hname : Text.trim (name ++ gap) = name := by
    rw [← Text.trimStart_trimEnd, Text.trimEnd_append_of_white (List.all_eq_true.mp hgap),
      Text.trimStart_trimEnd, Text.trim_of_bare h.bare]
  unfold entry?
  dsimp only
  rw [if_neg hhead, hsplit, Option.map_some, hname, Version.ofText, Text.trim_trimEnd]
  rfl

theorem exists_gives {name line : Text} {v : Version}
    (h : entry? line = some (name, v)) : ∃ value, Gives name value line := by
  unfold entry? at h
  dsimp only at h
  split at h
  · cases h
  · next hcomment =>
      obtain ⟨⟨left, right⟩, hsplit, ⟨⟩⟩ := Option.map_eq_some_iff.mp h
      obtain ⟨htrim, hsign⟩ := Text.splitFirst?_eq_some_iff.mp hsplit
      obtain ⟨lead, tail, hlead, -, hline⟩ := Text.exists_append_trim line
      have hhead : ∀ c ∈ left.head?, CharClass.isWhite c = false ∧ c ≠ '#' := by
        intro c hc
        have hc' : (Text.trim line).head? = some c := by
          rw [htrim, List.head?_append, hc]
          rfl
        refine ⟨(Text.bare_trim line).1 c hc', ?_⟩
        rintro rfl
        exact hcomment hc'
      have hleft : Text.trim left = Text.trimEnd left := by
        rw [Text.trim, Text.trimStart_of_head? fun c hc => (hhead c hc).1]
      refine ⟨right ++ tail, Text.bare_trim left, mt Text.mem_of_mem_trim hsign, ?_, lead,
        Text.endWhite left, hlead, List.all_eq_true.mpr fun c => Text.isWhite_of_mem_endWhite, ?_⟩
      · rw [hleft]
        cases left with
        | nil => rintro ⟨⟩
        | cons c left =>
            rw [Text.trimEnd_cons_of_not_white (hhead c rfl).1]
            rintro ⟨⟩
            exact (hhead _ rfl).2 rfl
      · rw [hleft, List.append_assoc lead, Text.trimEnd_append_endWhite]
        nth_rewrite 1 [hline]
        rw [htrim]
        simp

/-! ## The last line for a name -/

theorem lookup_put (name : Text) (v : Version) (entries : List (Text × Version)) (n : Text) :
    (put name v entries).lookup n = if n = name then some v else entries.lookup n := by
  induction entries with
  | nil =>
      by_cases hn : n = name
      · simp [put, hn]
      · simp [put, List.lookup_cons, beq_false_of_ne hn, hn]
  | cons e entries ih =>
      obtain ⟨m, w⟩ := e
      rw [put]
      split
      · next hm =>
          subst hm
          by_cases hn : n = m
          · simp [hn]
          · simp [List.lookup_cons, beq_false_of_ne hn, hn]
      · next hm =>
          rw [List.lookup_cons, List.lookup_cons, ih]
          by_cases hn : n = m
          · simp [hn, hm]
          · simp [beq_false_of_ne hn]

theorem lookup_foldl_put {name : Text} {es : List (Text × Version)} (h : ∀ e ∈ es, e.1 ≠ name)
    (entries : List (Text × Version)) :
    (es.foldl (fun entries e => put e.1 e.2 entries) entries).lookup name =
      entries.lookup name := by
  induction es generalizing entries with
  | nil => rfl
  | cons e es ih =>
      have hne : e.1 ≠ name := h e List.mem_cons_self
      rw [List.foldl_cons, ih fun e he => h e (List.mem_cons_of_mem _ he), lookup_put,
        if_neg hne.symm]

/-- The manifest publishes a version of a name when the last line that gives the
name a value spells that version. -/
def Publishes (manifest name : Text) (v : Version) : Prop :=
  ∃ front l back value, manifest.lines = front ++ l :: back ∧ Gives name value l.content ∧
    v.Spells value ∧ ∀ m ∈ back, ∀ other, ¬ Gives name other m.content

theorem get?_ofText {manifest name : Text} {v : Version} (h : Publishes manifest name v) :
    (ofText manifest).get? name = some v := by
  obtain ⟨front, l, back, value, hlines, hgives, hspells, hlast⟩ := h
  have hback : ∀ e ∈ back.filterMap (fun l => entry? l.content), e.1 ≠ name := by
    rintro ⟨other, w⟩ he rfl
    obtain ⟨m, hm, hentry⟩ := List.mem_filterMap.mp he
    obtain ⟨other, hother⟩ := exists_gives hentry
    exact hlast m hm other hother
  have hline : (l :: back).filterMap (fun l => entry? l.content) =
      (name, v) :: back.filterMap (fun l => entry? l.content) := by
    apply List.filterMap_cons_some
    rw [hgives.entry?_eq, Version.ofText_of_spells hspells]
  rw [get?, ofText, hlines, List.filterMap_append, hline, List.foldl_append, List.foldl_cons,
    lookup_foldl_put hback, lookup_put, if_pos rfl]

/-- A document with a marker is checked against the last line for its name: both
versions are reported, with how they compare. -/
theorem check_of_publishes {manifest name front back : Text} {a b : Version}
    (hfront : ¬ Version.markerWord <:+: front.map Version.foldCase)
    (hback : ∀ c ∈ back.head?, CharClass.isDigitAnywhere c = false)
    (hpublishes : Publishes manifest name b) :
    (ofText manifest).check name (front ++ "Version: ".toList ++ a.toText ++ back) =
      ⟨name, some a, some b,
        if a.parts < b.parts then .outdated else if a = b then .upToDate else .ahead⟩ := by
  rw [check, a.find?_of_marker hfront hback, get?_ofText hpublishes, VersionStatus.of,
    VersionStatus.ofVersions_eq]

/-- A manifest with a comment, a name given twice and a line whose name is
empty. -/
def unevenManifest : Text :=
  "# app.yaml=9\napp.yaml = 3.0.0\nb=2.0.0\n\t app.yaml\t=  V1.1.0.8-beta \r\n=app.yaml=0\n".toList

theorem publishes_unevenManifest : Publishes unevenManifest "app.yaml".toList ⟨1, 1, 0⟩ := by
  have hlast : ∀ m ∈ unevenManifest.lines.drop 4, ∀ e ∈ entry? m.content,
      e.1 ≠ "app.yaml".toList := by decide
  refine ⟨unevenManifest.lines.take 3, ⟨3, 38, "\t app.yaml\t=  V1.1.0.8-beta ".toList, .crlf⟩,
    unevenManifest.lines.drop 4, "  V1.1.0.8-beta ".toList, by decide, ?_, ?_, ?_⟩
  · exact ⟨⟨by rintro _ ⟨⟩; rfl, by rintro _ ⟨⟩; rfl⟩, by decide, by decide, "\t ".toList,
      "\t".toList, rfl, rfl, rfl⟩
  · exact ⟨"  ".toList, ['V'], ".8-beta".toList, " ".toList, rfl, by decide,
      by rintro _ ⟨⟩; rfl, rfl, rfl⟩
  · intro m hm other hgives
    exact hlast m hm _ hgives.entry?_eq rfl

theorem check_of_publishes_outdated :
    (ofText unevenManifest).check "app.yaml".toList
        ("# version 9.9.9\r\n# ".toList ++ "Version: ".toList ++
          Version.toText ⟨1, 0, 4294967295⟩ ++ ".7\n".toList) =
      ⟨"app.yaml".toList, some ⟨1, 0, 4294967295⟩, some ⟨1, 1, 0⟩, .outdated⟩ := by
  have hless : Version.parts ⟨1, 0, 4294967295⟩ < Version.parts ⟨1, 1, 0⟩ := by
    simp [Version.parts, Prod.Lex.toLex_lt_toLex]
  have hfront : ¬ Version.markerWord <:+:
      "# version 9.9.9\r\n# ".toList.map Version.foldCase := by decide +kernel
  rw [check_of_publishes hfront (by rintro _ ⟨⟩; rfl) publishes_unevenManifest, if_pos hless]

end Manifest

end Marginalia

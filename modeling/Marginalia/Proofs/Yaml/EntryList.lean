import Marginalia.Proofs.Yaml.Entry
import Marginalia.Proofs.Yaml.PathValue

/-!
# Entries that are read back

A scalar, a key and an entry of a mapping in writing, each with what the reader
makes of it: a `ReadScalar`, a `ReadKey` and a `ReadEntry`.  Entries below one
another are read as a block mapping with these keys and values, whatever stands
below them, as long as that is no deeper.
-/

namespace Marginalia.Yaml

open Source (isGap)

namespace Source

/-- Some lines as they are read: each with an indentation and behind a line
feed, before a text. -/
def hang (width : Nat) (lines : List Text) (tail : Text) : Text :=
  lines.foldr (fun l r => '\n' :: (List.replicate width ' ' ++ (l ++ r))) tail

theorem hang_cons (width : Nat) (l : Text) (lines : List Text) (tail : Text) :
    hang width (l :: lines) tail =
      '\n' :: (List.replicate width ' ' ++ (l ++ hang width lines tail)) := rfl

theorem hang_append (width : Nat) (lines lines' : List Text) (tail : Text) :
    hang width (lines ++ lines') tail = hang width lines (hang width lines' tail) :=
  List.foldr_append

theorem hang_indented (width : Nat) (lines : List Text) (tail : Text) :
    hang width (lines.map ([' ', ' '] ++ ·)) tail = hang (width + 2) lines tail := by
  induction lines with
  | nil => rfl
  | cons l lines ih =>
      rw [List.map_cons, hang_cons, hang_cons, ih, List.replicate_add]
      simp [List.replicate]

end Source

open Source (hang isInline)

/-! ## Scalars, keys and entries in writing -/

/-- A scalar in writing, with the token and the value that the reader makes of
it. -/
structure ReadScalar where
  written : Text
  bare : Bool
  text : Text
  value : Value
  taken : Scan.TakesScalar written (.scalar bare text)
  means : Value.ofScalar false none bare text = .ok value
  inline : ∀ c ∈ written, isInline c = true

/-- A key in writing, with the token that the reader makes of it, which is a
string. -/
structure ReadKey where
  written : Text
  bare : Bool
  name : Text
  taken : Scan.TakesKey written (.scalar bare name)
  means : Value.ofScalar false none bare name = .ok (.str name)
  begins : ∃ c r, written = c :: r ∧ isGap c = false ∧ c ≠ '#'
  inline : ∀ c ∈ written, isInline c = true

/-- An entry of a mapping on one line, perhaps with a comment behind it. -/
structure ReadEntry where
  key : ReadKey
  scalar : ReadScalar
  note : Text
  isNote : Scan.IsNote note
  inline : ∀ c ∈ note, isInline c = true

/-! ### Ways of writing -/

theorem Scalar.isInline_of_mem_doubleQuoted {s : Text}
    (hs : ∀ c ∈ s, Source.isNoncharacter c = false) :
    ∀ c ∈ Scalar.doubleQuoted s, isInline c = true := by
  intro c hc
  refine Source.isInline_of_isControl (Scalar.noControl_doubleQuoted s c hc) ?_
  by_contra hn
  rw [Bool.not_eq_false] at hn
  rw [Token.doubleQuoted_eq] at hc
  rw [hs c ((Token.mem_inside_iff hn).mp hc)] at hn
  cases hn

namespace ReadScalar

def ofWord {word : Text} {v : Value} (hopens : Scalar.opensBare word = true)
    (hword : ∀ c ∈ word, isGap c = false) (hcolon : ':' ∉ word)
    (hvalue : Value.ofPlain word = .ok v) (hinline : ∀ c ∈ word, isInline c = true) :
    ReadScalar where
  written := word
  bare := true
  text := word
  value := v
  taken := Scan.takesScalar_word hopens hword hcolon
  means := hvalue
  inline := hinline

def ofQuoted {s : Text} (hs : Scalar.ReadsQuoted s)
    (hallowed : ∀ c ∈ s, Source.isNoncharacter c = false) : ReadScalar where
  written := Scalar.doubleQuoted s
  bare := false
  text := s
  value := .str s
  taken := Scan.takesScalar_doubleQuoted hs
  means := rfl
  inline := Scalar.isInline_of_mem_doubleQuoted hallowed

end ReadScalar

namespace ReadKey

def ofBare {key : Text} (hkey : Scalar.ReadsKey key) : ReadKey where
  written := key
  bare := true
  name := key
  taken := Scan.takesKey_bare hkey
  means := hkey.isString
  begins := Scalar.exists_of_opensKey hkey.opens
  inline := hkey.inline

def ofQuoted {key : Text} (hkey : ∀ c ∈ key, Source.isSeparator c = false)
    (hshort : (Scalar.doubleQuoted key).length ≤ 1024)
    (hallowed : ∀ c ∈ key, Source.isNoncharacter c = false) : ReadKey where
  written := Scalar.doubleQuoted key
  bare := false
  name := key
  taken := Scan.takesKey_doubleQuoted hkey hshort
  means := rfl
  begins := ⟨'"', _, rfl, by decide, by decide⟩
  inline := Scalar.isInline_of_mem_doubleQuoted hallowed

end ReadKey

namespace ReadEntry

def line (e : ReadEntry) : Text :=
  e.key.written ++ ':' :: ' ' :: (e.scalar.written ++ e.note)

def tokens (e : ReadEntry) : List Token :=
  [.key, .scalar e.key.bare e.key.name, .value, .scalar e.scalar.bare e.scalar.text]

def node (e : ReadEntry) : Node × Node :=
  (Node.word e.key.bare e.key.name, Node.word e.scalar.bare e.scalar.text)

def value (e : ReadEntry) : Value × Value :=
  (.str e.key.name, e.scalar.value)

theorem isInline_line (e : ReadEntry) : ∀ c ∈ e.line, isInline c = true := by
  intro c hc
  simp only [line, List.mem_append, List.mem_cons] at hc
  rcases hc with hc | rfl | rfl | hc | hc
  · exact e.key.inline c hc
  · rfl
  · rfl
  · exact e.scalar.inline c hc
  · exact e.inline c hc

theorem begins (e : ReadEntry) : ∃ c r, e.line = c :: r ∧ isGap c = false ∧ c ≠ '#' := by
  obtain ⟨c, r, hkey, hc, hsign⟩ := e.key.begins
  exact ⟨c, _, by rw [line, hkey, List.cons_append], hc, hsign⟩

end ReadEntry

def entryLines (es : List ReadEntry) : List Text :=
  es.map ReadEntry.line

def mappingTokens (es : List ReadEntry) : List Token :=
  .blockMappingStart :: (es.flatMap ReadEntry.tokens ++ [.blockEnd])

/-! ## Tokens -/

namespace Scan

variable {line column i width : Nat} {is : List Nat} {allowed : Bool} {before : List Token}
  {tail : Text}

theorem exists_finish_scalar (x : ReadScalar) {note : Text} (hnote : IsNote note) (hi : i < column)
    (htail : Follows i tail) (line : Nat) (allowed : Bool) (before : List Token) :
    ∃ line' column',
      (inBlock ⟨x.written ++ (note ++ tail), line, column⟩ (i :: is) allowed before).finish =
        (inBlock ⟨tail, line', column'⟩ (i :: is) false
          (.scalar x.bare x.text :: before)).finish := by
  obtain ⟨line', column', hscalar⟩ := x.taken line column i is allowed (note ++ tail) before hi
    (htail.trails_note hnote)
  refine ⟨line', column', hscalar.trans ?_⟩
  exact finish_inBlock_of_samePlace (samePlace_note hnote htail.isBelow line' column' column')

/-- An entry; the first one of a mapping opens it. -/
theorem exists_finish_entry (e : ReadEntry) (hcolumn : column ≠ 0) (hi : i ≤ column)
    (htail : Follows column tail) (line : Nat) (before : List Token) :
    ∃ line' column', (inBlock ⟨e.line ++ tail, line, column⟩ (i :: is) true before).finish =
      (inBlock ⟨tail, line', column'⟩ (if i < column then column :: i :: is else i :: is) false
        (e.tokens.reverse ++
          if i < column then .blockMappingStart :: before else before)).finish := by
  obtain ⟨column₁, hlt, hkey⟩ := e.key.taken line column i is
    (e.scalar.written ++ (e.note ++ tail)) before hcolumn hi
  -- either way the column of the mapping is that of its keys
  obtain ⟨js, hjs⟩ : ∃ js, (if i < column then column :: i :: is else i :: is) = column :: js := by
    rcases Nat.eq_or_lt_of_le hi with rfl | hlt
    · exact ⟨is, if_neg (Nat.lt_irrefl i)⟩
    · exact ⟨i :: is, if_pos hlt⟩
  rw [hjs] at hkey ⊢
  obtain ⟨line', column', hscalar⟩ := @exists_finish_scalar column₁ column js tail e.scalar e.note
    e.isNote hlt htail line false
    (.value :: .scalar e.key.bare e.key.name :: .key ::
      if i < column then .blockMappingStart :: before else before)
  refine ⟨line', column', ?_⟩
  have htext : e.line ++ tail =
      e.key.written ++ ':' :: ' ' :: (e.scalar.written ++ (e.note ++ tail)) := by
    simp [ReadEntry.line]
  rw [htext, hkey, hscalar]
  rfl

/-- Before the next entry, too, the text goes no deeper than the entries. -/
theorem follows_entryLines (es : List ReadEntry) (hwidth : width ≠ 0) (htail : Follows width tail) :
    Follows width (hang width (entryLines es) tail) := by
  cases es with
  | nil => exact htail
  | cons e es =>
      obtain ⟨c, r, hline, hc, hsign⟩ := e.begins
      rw [entryLines, List.map_cons, Source.hang_cons, hline, List.cons_append]
      exact follows_indented hc hsign (fun h => absurd h hwidth) _

theorem exists_finish_entries (es : List ReadEntry) (hwidth : width ≠ 0)
    (htail : Follows width tail) (line column : Nat) (before : List Token) :
    ∃ line' column',
      (inBlock ⟨hang width (entryLines es) tail, line, column⟩ (width :: is) false before).finish =
        (inBlock ⟨tail, line', column'⟩ (width :: is) false
          ((es.flatMap ReadEntry.tokens).reverse ++ before)).finish := by
  induction es generalizing line column before with
  | nil => exact ⟨line, column, rfl⟩
  | cons e es ih =>
      obtain ⟨c, r, hline, hc, hsign⟩ := e.begins
      obtain ⟨line₁, column₁, hentry⟩ := @exists_finish_entry width width is
        (hang width (entryLines es) tail) e hwidth (Nat.le_refl width)
        (follows_entryLines es hwidth htail) (line + 1) before
      rw [if_neg (Nat.lt_irrefl width), if_neg (Nat.lt_irrefl width)] at hentry
      obtain ⟨line', column', hrest⟩ := ih line₁ column₁ (e.tokens.reverse ++ before)
      refine ⟨line', column', ?_⟩
      rw [entryLines, List.map_cons, Source.hang_cons, ← entryLines, hline, List.cons_append,
        finish_indented hc hsign hwidth, ← List.cons_append, ← hline, hentry, hrest,
        List.flatMap_cons, List.reverse_append, List.append_assoc]

/-- A mapping whose first entry stands where a key may begin. -/
theorem exists_finish_mapping (e : ReadEntry) (es : List ReadEntry) (hlt : i < width)
    (htail : Follows i tail) (line : Nat) (before : List Token) :
    ∃ line' column',
      (inBlock ⟨e.line ++ hang width (entryLines es) tail, line, width⟩ (i :: is) true
          before).finish =
        (inBlock ⟨tail, line', column'⟩ (i :: is) false
          ((mappingTokens (e :: es)).reverse ++ before)).finish := by
  have hwidth : width ≠ 0 := Nat.ne_zero_of_lt hlt
  have hdeeper := htail.mono (Nat.le_of_lt hlt)
  obtain ⟨line₁, column₁, hentry⟩ := @exists_finish_entry width i is
    (hang width (entryLines es) tail) e hwidth (Nat.le_of_lt hlt)
    (follows_entryLines es hwidth hdeeper) line before
  rw [if_pos hlt, if_pos hlt] at hentry
  obtain ⟨line', column', hrest⟩ := @exists_finish_entries width (i :: is) tail es hwidth hdeeper
    line₁ column₁ (e.tokens.reverse ++ .blockMappingStart :: before)
  refine ⟨line', column', ?_⟩
  rw [hentry, hrest, finish_inBlock_close]
  · simp [mappingTokens]
  · -- what follows is not as deep as the entries
    exact (htail.shallow line' column').imp_right fun h => Nat.lt_of_le_of_lt h.2 hlt

end Scan

/-! ## Nodes -/

namespace Node

/-- A mapping without an anchor and without a tag. -/
def plainMapping (entries : List (Node × Node)) : Node :=
  .mapping ⟨none, none⟩ entries

theorem run_readBlockEntries_entries (es : List ReadEntry) {rest : List Token} (fuel : Nat)
    (r : Reader) (hfuel : 3 * (es.flatMap ReadEntry.tokens).length + 1 ≤ fuel)
    (hr : r.tokens = es.flatMap ReadEntry.tokens ++ .blockEnd :: rest) :
    (readBlockEntries fuel).run r =
      .ok (es.map ReadEntry.node,
        { r with tokens := rest, events := r.events + 2 * es.length }) := by
  induction es generalizing fuel r with
  | nil =>
      obtain ⟨fuel, rfl⟩ := Nat.exists_eq_add_of_le' hfuel
      obtain ⟨_, anchors, handles, events⟩ := r
      obtain rfl := hr
      unfold readBlockEntries
      rfl
  | cons e es ih =>
      have hlength : (e.tokens).length = 4 := rfl
      obtain ⟨fuel, rfl⟩ : ∃ n, fuel = n + 2 := Nat.exists_eq_add_of_le' (by
        simp [hlength] at hfuel
        omega)
      have hvalue : (blockNode (fuel + 1)).run { r with
          tokens := .scalar e.scalar.bare e.scalar.text ::
            (es.flatMap ReadEntry.tokens ++ .blockEnd :: rest)
          events := r.events + 1 } =
            .ok (word e.scalar.bare e.scalar.text, { r with
              tokens := es.flatMap ReadEntry.tokens ++ .blockEnd :: rest
              events := r.events + 1 + 1 }) := run_blockNode_word rfl
      have hmore := ih (fuel + 1)
        { r with
          tokens := es.flatMap ReadEntry.tokens ++ .blockEnd :: rest
          events := r.events + 1 + 1 }
        (by simp [hlength] at hfuel ⊢; omega) rfl
      refine (run_readBlockEntries_word_eq_ok_iff hr).mpr ⟨_, _, _, hvalue, ?_, rfl⟩
      rw [hmore]
      simp only [List.length_cons, Except.ok.injEq, Prod.mk.injEq, true_and, Reader.mk.injEq]
      omega

theorem run_read_mappingTokens (es : List ReadEntry) {rest : List Token} {indentless : Bool}
    (fuel : Nat) (r : Reader) (hfuel : 3 * (mappingTokens es).length + 1 ≤ fuel)
    (hr : r.tokens = mappingTokens es ++ rest) :
    (read true indentless fuel).run r =
      .ok (plainMapping (es.map ReadEntry.node),
        { r with tokens := rest, events := r.events + (2 + 2 * es.length) }) := by
  obtain ⟨fuel, rfl⟩ : ∃ n, fuel = n + 1 := Nat.exists_eq_add_of_le' (by omega)
  have htokens : r.tokens =
      .blockMappingStart :: (es.flatMap ReadEntry.tokens ++ .blockEnd :: rest) := by
    rw [hr]
    simp [mappingTokens]
  rw [mappingTokens, List.length_cons, List.length_append] at hfuel
  refine (run_read_mapping_eq_ok_iff htokens).mpr ⟨_, ?_, rfl⟩
  rw [run_readBlockEntries_entries es fuel _ (by omega) rfl, Nat.add_assoc]

theorem anchored_entries (es : List ReadEntry) :
    (plainMapping (es.map ReadEntry.node)).anchored = [] := by
  have hentries : anchoredEntries (es.map ReadEntry.node) = [] := by
    induction es with
    | nil => simp [anchoredEntries]
    | cons e es ih => simp [anchoredEntries, ReadEntry.node, word, anchored, ih]
  simp [plainMapping, anchored, hentries]

end Node

/-! ## Values -/

namespace Value

theorem Means.mono {n : Node} {levels levels' : Nat} {v : Value} (h : Means n levels v)
    (hle : levels ≤ levels') : Means n levels' v :=
  fun a left k hleft => h a left k (Nat.le_trans hle hleft)

theorem means_scalar (x : ReadScalar) : Means (Node.word x.bare x.text) 0 x.value :=
  means_word x.means

theorem run_mapM_entries (es : List ReadEntry) (a : Anchors) (left k : Nat) :
    ((es.map ReadEntry.node).mapM (ofEntry a left)).run k = .ok (es.map ReadEntry.value, k) := by
  induction es with
  | nil => rfl
  | cons e es ih =>
      have hvalue := means_scalar e.scalar a left k (Nat.zero_le left)
      have hentry := (run_ofEntry_word_eq_ok_iff e.key.means).mpr ⟨_, hvalue, rfl⟩
      exact run_mapM_cons_eq_ok_iff.mpr ⟨_, k, _, hentry, ih, rfl⟩

/-- Entries with string keys have distinct keys when the names are. -/
theorem distinct_of_nodup {vs : List (Text × Value)} (h : (vs.map Prod.fst).Nodup) :
    ofEntries.distinct (vs.map fun v => (str v.1, v.2)) = true := by
  induction vs with
  | nil => rfl
  | cons v vs ih =>
      rw [List.map_cons, List.nodup_cons] at h
      rw [List.map_cons, ofEntries.distinct, ih h.2, Bool.and_true, Bool.not_eq_true',
        List.any_eq_false]
      intro e he hagree
      obtain ⟨w, hw, rfl⟩ := List.mem_map.mp he
      have hsame : v.1 = w.1 := by simpa [agree, agreeTo] using hagree
      exact h.1 (List.mem_map.mpr ⟨w, hw, hsame.symm⟩)

theorem means_entries {es : List ReadEntry} (hdistinct : (es.map (·.key.name)).Nodup) :
    Means (Node.plainMapping (es.map ReadEntry.node)) 1 (map (es.map ReadEntry.value)) := by
  intro a left k hleft
  obtain ⟨inner, rfl⟩ := Nat.exists_eq_add_of_le' hleft
  have hkeys := @distinct_of_nodup (es.map fun e => (e.key.name, e.scalar.value))
    (by simpa [List.map_map, Function.comp_def] using hdistinct)
  rw [List.map_map] at hkeys
  exact run_ofNode_mapping_eq_ok_iff.mpr ⟨inner, _, rfl, run_mapM_entries es a inner k, hkeys, rfl⟩

end Value

end Marginalia.Yaml

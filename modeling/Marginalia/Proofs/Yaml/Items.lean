import Marginalia.Proofs.Yaml.EntryList
import Marginalia.Proofs.Yaml.Word

/-!
# Items that are read back

A scalar behind a dash, and a record whose fields stand below one another: the
reader makes of each the item that was written.  `ReadItem` is an item in
writing with all that the reader makes of it, its tokens, its node and its
value, and a list of such items is read one after the other.
-/

namespace Marginalia.Yaml

open Source (atGap isGap hang isInline)

namespace Source

def isPrintable (c : Char) : Bool :=
  decide (0x20 ≤ c.toNat) && decide (c.toNat ≤ 0x7E)

end Source

open Source (isPrintable)

/-! ## Tokens -/

namespace Scan

variable {width : Nat} {is : List Nat}

/-- The reader takes an item of the open sequence, written on some lines, for
the tokens `ts` behind its dash. -/
def TakesItem (lines : List Text) (ts : List Token) : Prop :=
  ∀ (width : Nat) (is : List Nat) (allowed : Bool) (tail : Text) (line column : Nat)
    (before : List Token), Follows width tail → ∃ line' column',
      (inBlock ⟨hang width lines tail, line, column⟩ (width :: is) allowed before).finish =
        (inBlock ⟨tail, line', column'⟩ (width :: is) false
          (ts.reverse ++ .blockEntry :: before)).finish

theorem takesItem_scalar (x : ReadScalar) {note : Text} (hnote : IsNote note) :
    TakesItem ['-' :: ' ' :: (x.written ++ note)] [.scalar x.bare x.text] := by
  intro width is allowed tail line column before htail
  have htext : hang width ['-' :: ' ' :: (x.written ++ note)] tail =
      '\n' :: (List.replicate width ' ' ++ '-' :: ' ' :: (x.written ++ (note ++ tail))) := by
    rw [Source.hang_cons]
    simp [hang]
  obtain ⟨line', column', hscalar⟩ := @exists_finish_scalar (width + 2) width is tail x note hnote
    (Nat.lt_add_of_pos_right Nat.two_pos) htail (line + 1) true (.blockEntry :: before)
  refine ⟨line', column', ?_⟩
  rw [htext, finish_dash, hscalar]
  rfl

theorem takesItem_noFields :
    TakesItem [['-', ' ', '\x7b', '\x7d']] [.flowMappingStart, .flowMappingEnd] := by
  intro width is allowed tail line column before htail
  refine ⟨line + 1, width + 4, ?_⟩
  have htext : hang width [['-', ' ', '\x7b', '\x7d']] tail =
      '\n' :: (List.replicate width ' ' ++ '-' :: ' ' :: '\x7b' :: '\x7d' :: tail) := rfl
  have hopen : ∀ (s : Scan) (r : Text), s.dispatch '\x7b' r = s.openFlow .flowMappingStart :=
    dispatch_openMapping
  have hclose : ∀ (s : Scan) (r : Text), s.dispatch '\x7d' r = s.closeFlow .flowMappingEnd :=
    dispatch_closeMapping
  rw [htext, finish_dash, finish_emptyFlow hopen hclose (by decide) (by decide) (by decide)
    (by decide) (Nat.succ_ne_zero _) (Nat.lt_add_of_pos_right Nat.two_pos)
    ((htail.shallow (line + 1) (width + 4)).imp_right And.left).symm]
  rfl

theorem takesItem_entries (e : ReadEntry) (es : List ReadEntry) :
    TakesItem (('-' :: ' ' :: e.line) :: (entryLines es).map ([' ', ' '] ++ ·))
      (mappingTokens (e :: es)) := by
  intro width is allowed tail line column before htail
  have htext : hang width (('-' :: ' ' :: e.line) :: (entryLines es).map ([' ', ' '] ++ ·)) tail =
      '\n' :: (List.replicate width ' ' ++
        '-' :: ' ' :: (e.line ++ hang (width + 2) (entryLines es) tail)) := by
    rw [Source.hang_cons, Source.hang_indented]
    rfl
  obtain ⟨line', column', hmapping⟩ := @exists_finish_mapping width (width + 2) is tail e es
    (Nat.lt_add_of_pos_right Nat.two_pos) htail (line + 1) (.blockEntry :: before)
  refine ⟨line', column', ?_⟩
  rw [htext, finish_dash, hmapping]

end Scan

/-! ## Nodes -/

namespace Node

/-- The tokens `ts` are the node `n` behind the dash of an item, with `size`
events. -/
structure IsItem (n : Node) (size : Nat) (ts : List Token) : Prop where
  opens : ∀ rest, (ts ++ rest).head? ≠ some .blockEntry ∧
    endsBlockEntry (ts ++ rest).head? = false
  run_read : ∀ (fuel : Nat) (r : Reader) (rest : List Token), 3 * ts.length + 1 ≤ fuel →
    r.tokens = ts ++ rest → (read true false fuel).run r =
      .ok (n, { r with tokens := rest, events := r.events + size })

theorem isItem_word (bare : Bool) (text : Text) :
    IsItem (word bare text) 1 [.scalar bare text] where
  opens rest := ⟨by simp, rfl⟩
  run_read fuel r rest hfuel hr := by
    obtain ⟨fuel, rfl⟩ := Nat.exists_eq_add_of_le' hfuel
    exact run_read_word hr

theorem isItem_noFields : IsItem (plainMapping []) 2 [.flowMappingStart, .flowMappingEnd] where
  opens rest := ⟨by simp, rfl⟩
  run_read fuel r rest hfuel hr := by
    obtain ⟨fuel, rfl⟩ := Nat.exists_eq_add_of_le' hfuel
    obtain ⟨_, anchors, handles, events⟩ := r
    obtain rfl := hr
    unfold read
    rfl

theorem isItem_entries (es : List ReadEntry) :
    IsItem (plainMapping (es.map ReadEntry.node)) (2 + 2 * es.length) (mappingTokens es) where
  opens rest := ⟨by simp [mappingTokens], rfl⟩
  run_read fuel r rest hfuel hr := run_read_mappingTokens es fuel r hfuel hr

end Node

/-! ## Items in writing -/

/-- An item in writing with what the reader makes of it. -/
structure ReadItem where
  lines : List Text
  /-- The tokens behind the dash. -/
  tokens : List Token
  node : Node
  /-- The number of events of the node. -/
  size : Nat
  value : Value
  begins : ∃ l ls, lines = ('-' :: ' ' :: l) :: ls
  taken : Scan.TakesItem lines tokens
  isItem : Node.IsItem node size tokens
  anchored : node.anchored = []
  means : Value.Means node 1 value
  inline : ∀ l ∈ lines, ∀ c ∈ l, isInline c = true

namespace ReadItem

def ofScalar (x : ReadScalar) (note : Text) (hnote : Scan.IsNote note)
    (hinline : ∀ c ∈ note, isInline c = true) : ReadItem where
  lines := ['-' :: ' ' :: (x.written ++ note)]
  tokens := [.scalar x.bare x.text]
  node := Node.word x.bare x.text
  size := 1
  value := x.value
  begins := ⟨_, _, rfl⟩
  taken := Scan.takesItem_scalar x hnote
  isItem := Node.isItem_word x.bare x.text
  anchored := rfl
  means := (Value.means_scalar x).mono (Nat.zero_le 1)
  inline := by
    intro l hl c hc
    obtain rfl := List.mem_singleton.mp hl
    simp only [List.mem_cons, List.mem_append] at hc
    rcases hc with rfl | rfl | hc | hc
    · decide
    · decide
    · exact x.inline c hc
    · exact hinline c hc

def noFields : ReadItem where
  lines := [['-', ' ', '\x7b', '\x7d']]
  tokens := [.flowMappingStart, .flowMappingEnd]
  node := Node.plainMapping []
  size := 2
  value := .map []
  begins := ⟨_, _, rfl⟩
  taken := Scan.takesItem_noFields
  isItem := Node.isItem_noFields
  anchored := Node.anchored_entries []
  means := @Value.means_entries [] List.nodup_nil
  inline := by
    simp only [List.mem_singleton, forall_eq]
    exact List.all_eq_true.mp rfl

def ofEntries (e : ReadEntry) (es : List ReadEntry)
    (hdistinct : ((e :: es).map (·.key.name)).Nodup) : ReadItem where
  lines := ('-' :: ' ' :: e.line) :: (entryLines es).map ([' ', ' '] ++ ·)
  tokens := mappingTokens (e :: es)
  node := Node.plainMapping ((e :: es).map ReadEntry.node)
  size := 2 + 2 * (e :: es).length
  value := .map ((e :: es).map ReadEntry.value)
  begins := ⟨_, _, rfl⟩
  taken := Scan.takesItem_entries e es
  isItem := Node.isItem_entries (e :: es)
  anchored := Node.anchored_entries (e :: es)
  means := Value.means_entries hdistinct
  inline := by
    simp only [entryLines, List.mem_cons, List.mem_map]
    rintro l (rfl | ⟨_, ⟨e', -, rfl⟩, rfl⟩) c hc
    · simp only [List.mem_cons] at hc
      rcases hc with rfl | rfl | hc
      · decide
      · decide
      · exact e.isInline_line c hc
    · simp only [List.cons_append, List.nil_append, List.mem_cons] at hc
      rcases hc with rfl | rfl | hc
      · decide
      · decide
      · exact e'.isInline_line c hc

end ReadItem

/-! ## Scalars that are read back -/

namespace Scalar

def value : Scalar → Value
  | null => .null
  | bool b => .bool b
  | int i => .int i
  | float x => .float x
  | str s => .str s

theorem IsWord.eq_value {x : Scalar} {v : Value} (h : IsWord x v) : v = x.value := by
  cases h <;> rfl

/-- A scalar that is read back when it is written with the given quotes. -/
inductive Returns (quote : Quote) : Scalar → Prop
  | word {x : Scalar} {v : Value} (h : IsWord x v) : Returns quote x
  | float {x : Binary64} (h : Value.ofPlain (floatLayout.write x) = .ok (.float x)) :
      Returns quote (.float x)
  | str {s : Text} (h : ReadsBack quote s) : Returns quote (.str s)

theorem Returns.ofValue?_value {quote : Quote} {x : Scalar} (h : x.Returns quote) :
    ofValue? x.value = some x := by
  cases h with
  | word h =>
      cases h with
      | null => rfl
      | bool b => rfl
      | int hleast hgreatest => simp [value, ofValue?, hgreatest]
  | float h => rfl
  | str h => rfl

theorem of_needsQuotes_eq_false {s : Text} (h : needsQuotes s = false) {c : Char} (hc : c ∈ s) :
    c ≠ ':' ∧ c ≠ ' ' ∧ CharClass.isControl c = false := by
  simp only [needsQuotes, Bool.or_eq_false_iff, List.any_eq_false] at h
  have hdelicate := h.2 c hc
  simp only [isDelicate, Bool.or_eq_true, not_or, Bool.not_eq_true, beq_eq_false_iff_ne]
    at hdelicate
  exact ⟨hdelicate.1.1.1.1.1, hdelicate.1.2, hdelicate.2⟩

theorem isInline_of_isNumberWord {w : Text} (h : IsNumberWord w) {c : Char} (hc : c ∈ w) :
    isInline c = true :=
  Source.isInline_of_isControl (isControl_of_isNumberWord h hc)
    (isNoncharacter_of_isNumberWord h hc)

theorem isGap_of_needsQuotes_eq_false {s : Text} (h : needsQuotes s = false)
    (hs : ∀ c ∈ s, Source.isSeparator c = false) {c : Char} (hc : c ∈ s) : isGap c = false := by
  obtain ⟨-, hspace, hcontrol⟩ := of_needsQuotes_eq_false h hc
  rw [Bool.eq_false_iff]
  intro hgap
  rcases Source.isGap_cases hgap with rfl | rfl | rfl | rfl | rfl
  · exact hspace rfl
  · exact absurd hcontrol (by decide)
  · exact absurd hcontrol (by decide)
  · exact absurd (hs _ hc) (by decide)
  · exact absurd (hs _ hc) (by decide)

theorem readsKey_of_word {key : Text} (hopens : opensKey key = true)
    (hgap : ∀ c ∈ key, isGap c = false) (hcolon : ':' ∉ key) (hshort : key.length ≤ 1024)
    (hstring : Value.ofPlain key = .ok (.str key)) (hinline : ∀ c ∈ key, isInline c = true) :
    ReadsKey key := by
  refine ⟨hopens, ?_, hshort, hstring, hinline⟩
  have hmarker : Source.atMarker [':', ' '] = false := rfl
  have hspace : atGap [' '] = true := rfl
  have hread : Token.plainFrom false 0 [] .empty 0 1 (key ++ [':', ' ']) =
      .ok ⟨key, ⟨[':', ' '], 0, 1 + key.length⟩, false⟩ := by
    rw [Token.plainFrom_append hgap hcolon (by decide), Token.plainFrom]
    simp [hmarker, hspace, Source.isBlank, Source.isBreak]
    rfl
  exact hread

/-- A bare string is spelled like nothing else. -/
theorem ReadsBare.ofPlain_eq {s : Text} (h : ReadsBare s) : Value.ofPlain s = .ok (.str s) := by
  rw [Value.ofPlain_eq_str_iff]
  refine ⟨rfl, ?_, h.notNull, h.notBool, h.notInteger, h.notFloat⟩
  rintro rfl
  exact absurd h.opens (by decide)

theorem isNumberWord_write (x : Binary64) : IsNumberWord (floatLayout.write x) :=
  Layout.isNumberWord_write ⟨List.all_eq_true.mp rfl, 'N', _, Or.inl rfl, by decide⟩
    (List.all_eq_true.mp rfl) ⟨'i', _, rfl, by decide⟩ x

def ofNumberWord {w : Text} {v : Value} (h : IsNumberWord w) (hvalue : Value.ofPlain w = .ok v) :
    ReadScalar :=
  .ofWord (opensBare_of_isNumberWord h) (fun _ => isGap_of_isNumberWord h)
    (colon_not_mem_of_isNumberWord h) hvalue fun _ => isInline_of_isNumberWord h

theorem exists_readScalar_of_isNumberWord {w : Text} {v : Value} (h : IsNumberWord w)
    (hvalue : Value.ofPlain w = .ok v) : ∃ r : ReadScalar, r.written = w ∧ r.value = v :=
  ⟨ofNumberWord h hvalue, rfl, rfl⟩

theorem exists_readScalar_of_readsBack {quote : Quote} {s : Text} (h : ReadsBack quote s)
    (hquote : quote ≠ .single) :
    ∃ r : ReadScalar, r.written = (str s).render quote ∧ r.value = .str s := by
  by_cases hbare : quote = .plain ∧ needsQuotes s = false
  · obtain ⟨rfl, hquotes⟩ := hbare
    have hs := h.bare rfl hquotes
    refine ⟨.ofWord hs.opens (fun c => isGap_of_needsQuotes_eq_false hquotes hs.oneLine)
      (fun hc => (of_needsQuotes_eq_false hquotes hc).1 rfl) hs.ofPlain_eq fun c hc => ?_, ?_, rfl⟩
    · exact Source.isInline_of_isControl (of_needsQuotes_eq_false hquotes hc).2.2 (h.allowed c hc)
    · rw [render, hquotes]
      rfl
  · refine ⟨.ofQuoted (h.quoted hbare) h.allowed, ?_, rfl⟩
    cases quote with
    | single => exact absurd rfl hquote
    | double => rfl
    | plain =>
        have hquotes : needsQuotes s = true := by simpa using hbare
        rw [render, if_pos hquotes]
        rfl

theorem Returns.exists_readScalar {quote : Quote} {x : Scalar} (h : x.Returns quote)
    (hquote : quote ≠ .single) :
    ∃ r : ReadScalar, r.written = x.render quote ∧ r.value = x.value := by
  cases h with
  | word h =>
      rw [← h.eq_value]
      exact exists_readScalar_of_isNumberWord (isNumberWord_render h quote) (ofPlain_render h quote)
  | @float x h => exact exists_readScalar_of_isNumberWord (isNumberWord_write x) h
  | str h => exact exists_readScalar_of_readsBack h hquote

end Scalar

/-! ## Items that are read back -/

namespace ListItem

def value : ListItem → Value
  | scalar x => x.value
  | record fields => .map (fields.map fun f => (.str f.1, f.2.value))

/-- An item that is read back: a scalar, or a record with different keys that
are read back bare. -/
inductive Returns : ListItem → Prop
  | scalar {x : Scalar} (h : x.Returns .plain) : Returns (.scalar x)
  | record {fields : List (Text × Scalar)} (hkeys : ∀ f ∈ fields, Scalar.ReadsKey f.1)
      (hdistinct : (fields.map Prod.fst).Nodup) (hvalues : ∀ f ∈ fields, f.2.Returns .double) :
      Returns (.record fields)

theorem Returns.listItem?_value {item : ListItem} (h : item.Returns) :
    Value.listItem? item.value = some item := by
  cases h with
  | @scalar x h =>
      have hx := h.ofValue?_value
      cases x <;> simp_all [value, Scalar.value, Value.listItem?]
  | @record fields hkeys hdistinct hvalues =>
      have hfields : (fields.map fun f => (Value.str f.1, f.2.value)).filterMap (fun e =>
          e.1.str?.bind fun key => (Scalar.ofValue? e.2).map (key, ·)) = fields := by
        clear hkeys hdistinct
        induction fields with
        | nil => rfl
        | cons f fields ih =>
            have hf := (hvalues f (List.mem_cons_self ..)).ofValue?_value
            have hrest := ih fun g hg => hvalues g (List.mem_cons_of_mem f hg)
            simp [Value.str?, Value.untagged, hf] at hrest ⊢
            exact hrest
      exact congrArg (some ∘ ListItem.record) hfields

theorem field_eq (lead key : Text) (x : Scalar) :
    field lead key x = lead ++ (key ++ ':' :: ' ' :: x.render .double) := by
  cases x with
  | str s => simp [field, Scalar.render]
  | bool b => cases b <;> simp [field, Scalar.render]
  | _ => simp [field, Scalar.render]

theorem exists_readEntries {fields : List (Text × Scalar)}
    (hkeys : ∀ f ∈ fields, Scalar.ReadsKey f.1) (hvalues : ∀ f ∈ fields, f.2.Returns .double) :
    ∃ es : List ReadEntry, entryLines es = fields.map (fun f => field [] f.1 f.2) ∧
      es.map (·.key.name) = fields.map Prod.fst ∧
      es.map ReadEntry.value = fields.map fun f => (.str f.1, f.2.value) := by
  induction fields with
  | nil => exact ⟨[], rfl, rfl, rfl⟩
  | cons f fields ih =>
      obtain ⟨x, hwritten, hvalue⟩ :=
        (hvalues f (List.mem_cons_self ..)).exists_readScalar (by decide)
      obtain ⟨es, hlines, hnames, hentries⟩ := ih
        (fun g hg => hkeys g (List.mem_cons_of_mem f hg))
        (fun g hg => hvalues g (List.mem_cons_of_mem f hg))
      let e : ReadEntry :=
        ⟨.ofBare (hkeys f (List.mem_cons_self ..)), x, [], Or.inl rfl, by simp⟩
      have hline : e.line = field [] f.1 f.2 := by
        rw [field_eq, ReadEntry.line, hwritten, List.append_nil]
        rfl
      have hentry : e.value = (.str f.1, f.2.value) := by
        rw [ReadEntry.value, hvalue]
        rfl
      refine ⟨e :: es, ?_, ?_, ?_⟩
      · rw [List.map_cons, ← hlines, ← hline]
        rfl
      · rw [List.map_cons, List.map_cons, hnames]
        rfl
      · rw [List.map_cons, List.map_cons, hentries, hentry]

theorem Returns.exists_readItem {item : ListItem} (h : item.Returns) :
    ∃ r : ReadItem, r.lines = item.render ∧ r.value = item.value := by
  cases h with
  | scalar h =>
      obtain ⟨x, hwritten, hvalue⟩ := h.exists_readScalar (by decide)
      refine ⟨.ofScalar x [] (Or.inl rfl) (by simp), ?_, hvalue⟩
      simp [ReadItem.ofScalar, render, hwritten]
  | @record fields hkeys hdistinct hvalues =>
      obtain ⟨es, hlines, hnames, hentries⟩ := exists_readEntries hkeys hvalues
      cases fields with
      | nil => exact ⟨.noFields, rfl, rfl⟩
      | cons f fields =>
          cases es with
          | nil => simp [entryLines] at hlines
          | cons e es =>
              obtain ⟨hfirst, hrest⟩ := List.cons.inj hlines
              refine ⟨.ofEntries e es (by rwa [hnames]), ?_, congrArg Value.map hentries⟩
              have hindent : (entryLines es).map ([' ', ' '] ++ ·) =
                  fields.map fun g => field [' ', ' '] g.1 g.2 := by
                rw [show entryLines es = _ from hrest, List.map_map]
                exact List.map_congr_left fun g _ => by simp [field_eq]
              have hdash : '-' :: ' ' :: e.line = field ['-', ' '] f.1 f.2 := by
                rw [show e.line = _ from hfirst]
                simp [field_eq]
              simp only [ReadItem.ofEntries, render, hindent, hdash]

end ListItem

/-! ## Plain items -/

/-- A word of letters that is read as a string and is short enough for a key. -/
structure IsPlainKey (key : Text) : Prop where
  ne_nil : key ≠ []
  letters : ∀ c ∈ key, c.isAlpha = true
  short : key.length ≤ 1024
  notNull : Value.isNull key = false
  notBool : Value.bool? key = none

/-- An item that is read back: a null, a truth value or an integer, or a record
whose keys are different words of letters and whose values are printable
strings. -/
inductive ListItem.IsPlain : ListItem → Prop
  | word {value : Scalar} {v : Value} (h : value.IsWord v) : IsPlain (.scalar value)
  | record {fields : List (Text × Text)} (hkeys : ∀ f ∈ fields, IsPlainKey f.1)
      (hdistinct : (fields.map Prod.fst).Nodup)
      (hvalues : ∀ f ∈ fields, ∀ c ∈ f.2, isPrintable c = true) :
      IsPlain (.record (fields.map fun f => (f.1, .str f.2)))

section Printable

variable {c : Char} (hc : isPrintable c = true)

include hc

theorem isSeparator_of_isPrintable : Source.isSeparator c = false := by
  rw [Bool.eq_false_iff]
  intro hseparator
  rw [Source.isSeparator, Bool.or_eq_true, beq_iff_eq, beq_iff_eq] at hseparator
  rcases hseparator with rfl | rfl <;> exact absurd hc (by decide)

theorem isNoncharacter_of_isPrintable : Source.isNoncharacter c = false := by
  rw [Bool.eq_false_iff]
  intro hnon
  rw [Source.isNoncharacter, Bool.or_eq_true, beq_iff_eq, beq_iff_eq] at hnon
  rcases hnon with rfl | rfl <;> exact absurd hc (by decide)

end Printable

namespace IsPlainKey

variable {key : Text} (h : IsPlainKey key)

include h

theorem ofPlain_eq : Value.ofPlain key = .ok (.str key) := by
  obtain ⟨c, r, rfl⟩ := List.exists_cons_of_ne_nil h.ne_nil
  exact Value.ofPlain_of_isAlpha (h.letters c (List.mem_cons_self ..)) h.notNull h.notBool

theorem isNumberWord : IsNumberWord key where
  chars c hc := by simp [isWordChar, Char.isAlphanum, h.letters c hc]
  begins := by
    obtain ⟨c, r, rfl⟩ := List.exists_cons_of_ne_nil h.ne_nil
    exact ⟨c, r, Or.inl rfl, by simp [Char.isAlphanum, h.letters c (List.mem_cons_self ..)]⟩

theorem readsKey : Scalar.ReadsKey key := by
  have hgap : ∀ c ∈ key, isGap c = false := fun c => Scalar.isGap_of_isNumberWord h.isNumberWord
  refine Scalar.readsKey_of_word ?_ hgap (Scalar.colon_not_mem_of_isNumberWord h.isNumberWord)
    h.short h.ofPlain_eq fun c => Scalar.isInline_of_isNumberWord h.isNumberWord
  obtain ⟨c, r, rfl⟩ := List.exists_cons_of_ne_nil h.ne_nil
  have hc := List.mem_cons_self (a := c) (l := r)
  have hletter : c.isAlphanum = true := by rw [Char.isAlphanum, h.letters c hc, Bool.true_or]
  simp [Scalar.opensKey, hgap c hc, Scalar.isIndicator_of_isAlphanum hletter]

end IsPlainKey

theorem Scalar.readsBack_of_isPrintable {s : Text} (hs : ∀ c ∈ s, isPrintable c = true) :
    Scalar.ReadsBack .double s :=
  ⟨fun c hc => isNoncharacter_of_isPrintable (hs c hc),
    fun _ => readsQuoted_of_isSeparator fun c hc => isSeparator_of_isPrintable (hs c hc), by simp⟩

theorem ListItem.IsPlain.returns {item : ListItem} (h : item.IsPlain) : item.Returns := by
  cases h with
  | word h => exact .scalar (.word h)
  | @record fields hkeys hdistinct hvalues =>
      refine .record (List.forall_mem_map.mpr fun f hf => (hkeys f hf).readsKey) ?_
        (List.forall_mem_map.mpr fun f hf => .str (Scalar.readsBack_of_isPrintable (hvalues f hf)))
      rwa [List.map_map]

end Marginalia.Yaml

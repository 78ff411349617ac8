import Marginalia.Proofs.Text.Lines
import Marginalia.Proofs.Toml.Quoted
import Marginalia.Proofs.Yaml.Word
import Marginalia.Toml.Reader

/-!
# Documents line by line

A document that is written line by line is read line by line.  A line is an
entry, which is a bare key with its value, or the header of a table, or blank.
Each takes at most one step of the reader, and what the reader has at the end of
a line does not depend on the lines that follow.
-/

namespace Marginalia.Toml

/-! ## Tables -/

namespace Entries

variable {es : Entries} {key : Text} {v w : Value}

theorem get?_concat_self (hnew : es.get? key = none) (v : Value) :
    (es ++ [(key, v)]).get? key = some v := by
  simp only [get?, Option.map_eq_none_iff] at hnew
  simp [get?, hnew]

theorem get?_concat_of_ne {other : Text} (hne : other ≠ key) (es : Entries) (v : Value) :
    (es ++ [(key, v)]).get? other = es.get? other := by
  simp [get?, Ne.symm hne]

theorem replace_concat_self (hnew : es.get? key = none) (v w : Value) :
    (es ++ [(key, v)]).replace key w = es ++ [(key, w)] := by
  have hothers : ∀ e ∈ es, (if e.1 = key then (key, w) else e) = e := by
    intro e he
    simp only [get?, Option.map_eq_none_iff, List.find?_eq_none, decide_eq_true_eq] at hnew
    rw [if_neg (hnew e he)]
  rw [replace, List.map_append, List.map_congr_left hothers, List.map_id']
  simp

end Entries

namespace Table

variable {es inner : Entries} {key name : Text}

/-- Above the first header an entry is added to the document. -/
theorem insertBelow?_top (hnew : es.get? key = none) (v : Value) :
    insertBelow? [] [] key v es = some (es ++ [(key, v)]) := by
  simp [insertBelow?, descend?, insert?, add?, hnew]

/-- Below the last header an entry is added to the table of the header. -/
theorem insertBelow?_header (hname : es.get? name = none) (hnew : inner.get? key = none)
    (v : Value) :
    insertBelow? [name] [] key v (es ++ [(name, .table .header inner)]) =
      some (es ++ [(name, .table .header (inner ++ [(key, v)]))]) := by
  simp [insertBelow?, descend?, insert?, add?, Entries.get?_concat_self hname,
    Entries.replace_concat_self hname, hnew]

/-- A header opens a table at the end of the document. -/
theorem openHeader?_new (hnew : es.get? key = none) :
    openHeader? false [] key es = some (es ++ [(key, .table .header [])]) := by
  simp [openHeader?, descend?, openTable?, hnew]

end Table

/-! ## Values -/

namespace Bare

variable {ds : Text}

theorem digits?_of_all (hne : ds ≠ []) (hds : ∀ c ∈ ds, c.isDigit = true) :
    digits? Char.isDigit ds = some ds := by
  induction ds with
  | nil => exact absurd rfl hne
  | cons c ds ih =>
      obtain ⟨hc, hds⟩ := List.forall_mem_cons.mp hds
      cases ds with
      | nil => simp [digits?, hc]
      | cons d ds =>
          have hd : d ≠ '_' := by
            rintro rfl
            exact absurd (hds '_' List.mem_cons_self) (by decide)
          have hrest := ih (List.cons_ne_nil d ds) hds
          rw [digits?]
          · simp [hc, hrest]
          · exact fun h => absurd h (List.cons_ne_nil d ds)
          · exact fun r h => hd (List.cons.inj h).1

theorem whole?_ofNat (n : Nat) : whole? (Text.ofNat n) = some (Text.ofNat n) := by
  have hlead : ¬((Text.ofNat n).head? = some '0' ∧ 1 < (Text.ofNat n).length) := by
    rintro ⟨hhead, hlength⟩
    obtain ⟨r, hcons⟩ := List.head?_eq_some_iff.mp hhead
    rw [hcons, Text.eq_nil_of_ofNat_eq_cons_zero hcons] at hlength
    exact absurd hlength (by decide)
  rw [whole?, digits?_of_all (Text.ofNat_ne_nil n) fun _ => Text.isDigit_of_mem_ofNat,
    Option.bind_some, if_neg hlead]

theorem inRange?_natCast {n : Nat} (hn : (n : Int) < Int.pow 2 128) :
    inRange? (n : Int) = some (n : Int) := by
  have hlow : -Int.pow 2 127 ≤ (n : Int) := by
    have hpow : 0 ≤ Int.pow 2 127 := Int.pow_nonneg (by decide)
    omega
  rw [inRange?, if_pos ⟨hlow, hn⟩]

theorem int?_ofNat {n : Nat} (hn : (n : Int) < Int.pow 2 128) :
    int? (Text.ofNat n) = some (n : Int) := by
  have hnext : ∀ {c : Char} {r : Text}, Text.ofNat n ≠ '0' :: c :: r := by
    intro c r h
    exact absurd (Text.eq_nil_of_ofNat_eq_cons_zero h) (List.cons_ne_nil c r)
  have hsign : sign (Text.ofNat n) = (false, Text.ofNat n) := by
    obtain ⟨d, r, hcons, hd⟩ := Text.exists_ofNat_eq_cons n
    rw [hcons, sign]
    · rintro r' h
      rw [(List.cons.inj h).1] at hd
      exact absurd hd (by decide)
    · rintro r' h
      rw [(List.cons.inj h).1] at hd
      exact absurd hd (by decide)
  rw [int?]
  · rw [hsign]
    dsimp only
    rw [whole?_ofNat, Option.bind_some, Text.toNat?_ofNat, Option.bind_some, if_neg (by decide),
      inRange?_natCast hn]
  · exact fun r => hnext
  · exact fun r => hnext
  · exact fun r => hnext

theorem split_ofNat (n : Nat) (rest : Text) :
    split (Text.ofNat n ++ '\n' :: rest) = (Text.ofNat n, '\n' :: rest) := by
  have hpart : ∀ c ∈ Text.ofNat n, isPart c = true := by
    intro c hc
    simp [isPart, Char.isAlphanum, Text.isDigit_of_mem_ofNat hc]
  have hstop : ∀ c ∈ ('\n' :: rest).head?, isPart c = false := by
    rintro c ⟨⟩
    decide
  simp only [split, Text.takeWhile_append_of_head? hpart hstop,
    Text.dropWhile_append_of_head? hpart hstop]
  rfl

theorem read?_ofNat {n : Nat} (hn : (n : Int) < Int.pow 2 128) (rest : Text) :
    read? (Text.ofNat n ++ '\n' :: rest) = some (.int n, '\n' :: rest) := by
  have hword : ∀ w : Text, w.head?.any Char.isDigit = false → Text.ofNat n ≠ w := by
    rintro w hw rfl
    obtain ⟨d, r, hcons, hd⟩ := Text.exists_ofNat_eq_cons n
    simp [hcons, hd] at hw
  simp only [read?, split_ofNat, value?, if_neg (hword ['t', 'r', 'u', 'e'] (by decide)),
    if_neg (hword ['f', 'a', 'l', 's', 'e'] (by decide)), int?_ofNat hn, Option.map_some]

end Bare

namespace Reader

/-- At the end of a line `written` is read as the value `v`. -/
structure WrittenAs (written : Text) (v : Value) : Prop where
  isBlank_head : ∀ c ∈ written.head?, isBlank c = false
  value?_append : ∀ rest, value? maxDepth (written ++ '\n' :: rest) = some (v, '\n' :: rest)

/-- A value that opens neither an array nor an inline table is read as a
leaf. -/
theorem value?_of_head? {t : Text} (harray : t.head? ≠ some '[') (htable : t.head? ≠ some '\x7b')
    (depth : Nat) : value? depth t = leaf? t := by
  cases depth with
  | zero => rfl
  | succ depth =>
      rw [value?]
      · rintro r rfl
        exact harray rfl
      · rintro r rfl
        exact htable rfl

theorem writtenAs_write (t : Text) : WrittenAs (Quoted.write t) (.str t) := by
  obtain ⟨mark, r, hwrite, hmark⟩ := Quoted.exists_write_eq_cons t
  constructor
  · rw [hwrite]
    rintro c ⟨⟩
    rcases hmark with rfl | rfl <;> decide
  · intro rest
    have hhead : (Quoted.write t ++ '\n' :: rest).head? = some mark := by
      rw [hwrite]
      rfl
    have hread : Quoted.read? (Quoted.write t ++ '\n' :: rest) = some (t, '\n' :: rest) := by
      apply Quoted.read?_write
      rintro c ⟨⟩
      exact ⟨by decide, by decide⟩
    have hquote : (Quoted.write t ++ '\n' :: rest).head? = some '"' ∨
        (Quoted.write t ++ '\n' :: rest).head? = some '\'' := by
      rw [hhead]
      exact hmark.imp (congrArg some) (congrArg some)
    rw [value?_of_head?, leaf?, if_pos hquote, hread, Option.map_some]
    all_goals
      rw [hhead]
      rcases hmark with rfl | rfl <;> decide

theorem writtenAs_ofNat {n : Nat} (hn : (n : Int) < Int.pow 2 128) :
    WrittenAs (Text.ofNat n) (.int n) := by
  obtain ⟨d, r, hcons, hd⟩ := Text.exists_ofNat_eq_cons n
  have hother : ∀ c, c.isDigit = false → d ≠ c := by
    rintro c hc rfl
    rw [hd] at hc
    cases hc
  constructor
  · rw [hcons]
    rintro c ⟨⟩
    simp [isBlank, hother ' ' (by decide), hother '\t' (by decide)]
  · intro rest
    have hhead : ∀ c, c.isDigit = false → (Text.ofNat n ++ '\n' :: rest).head? ≠ some c := by
      intro c hc h
      rw [hcons] at h
      exact hother c hc (Option.some.inj h)
    have hquote : ¬((Text.ofNat n ++ '\n' :: rest).head? = some '"' ∨
        (Text.ofNat n ++ '\n' :: rest).head? = some '\'') :=
      not_or.mpr ⟨hhead _ (by decide), hhead _ (by decide)⟩
    rw [value?_of_head? (hhead _ (by decide)) (hhead _ (by decide)), leaf?, if_neg hquote,
      Bare.read?_ofNat hn]

/-! ## Keys -/

def IsBareKey (key : Text) : Prop :=
  key ≠ [] ∧ key.all isKeyPart = true

instance (key : Text) : Decidable (IsBareKey key) :=
  inferInstanceAs (Decidable (_ ∧ _))

variable {key written rest : Text} {p : Progress} {v : Value} {es : Entries}

theorem IsBareKey.isKeyPart_of_mem (h : IsBareKey key) : ∀ c ∈ key, isKeyPart c = true :=
  List.all_eq_true.mp h.2

theorem ne_of_isKeyPart {c d : Char} (hc : isKeyPart c = true) (hd : isKeyPart d = false) :
    c ≠ d := by
  rintro rfl
  rw [hc] at hd
  cases hd

theorem isBlank_of_isKeyPart {c : Char} (hc : isKeyPart c = true) : isBlank c = false := by
  have hspace : c ≠ ' ' := ne_of_isKeyPart hc (by decide)
  have htab : c ≠ '\t' := ne_of_isKeyPart hc (by decide)
  simp [isBlank, hspace, htab]

theorem keyPart?_bare (hkey : IsBareKey key) (hrest : ∀ c ∈ rest.head?, isKeyPart c = false) :
    keyPart? (key ++ rest) = some (key, rest) := by
  have hpart := hkey.isKeyPart_of_mem
  obtain ⟨c, r, rfl⟩ := List.exists_cons_of_ne_nil hkey.1
  have hc : isKeyPart c = true := hpart c List.mem_cons_self
  unfold keyPart?
  split
  · next heq => exact absurd (List.cons_eq_cons.mp heq).1 (ne_of_isKeyPart hc (by decide))
  · next heq => exact absurd (List.cons_eq_cons.mp heq).1 (ne_of_isKeyPart hc (by decide))
  · simp only [Text.takeWhile_append_of_head? hpart hrest,
      Text.dropWhile_append_of_head? hpart hrest]
    rfl

theorem key?_bare (hkey : IsBareKey key) (hrest : ∀ c ∈ rest.head?, isKeyPart c = false)
    (hdot : (rest.dropWhile isBlank).head? ≠ some '.') :
    key? (key ++ rest).length (key ++ rest) = some ([], key, rest.dropWhile isBlank) := by
  have hstart : (key ++ rest).dropWhile isBlank = key ++ rest := by
    obtain ⟨c, r, rfl⟩ := List.exists_cons_of_ne_nil hkey.1
    simp [isBlank_of_isKeyPart (hkey.isKeyPart_of_mem c List.mem_cons_self)]
  obtain ⟨limit, hlimit⟩ : ∃ n, (key ++ rest).length = n + 1 :=
    Nat.exists_eq_succ_of_ne_zero (by simp [hkey.1])
  rw [hlimit]
  simp only [key?, hstart, keyPart?_bare hkey hrest, Option.bind_eq_bind, Option.bind_some]
  split
  · next heq =>
      rw [heq] at hdot
      exact absurd rfl hdot
  · rfl

/-! ## Lines -/

/-- A line without white space before it, read up to its line feed, takes one
step. -/
theorem lines?_of_line? {p' : Progress} {c : Char} {t : Text}
    (hstart : trivia? false (c :: t) = some (c :: t))
    (hline : line? p (c :: t) = some (p', '\n' :: rest)) (limit : Nat) :
    lines? (limit + 1) p (c :: t) = lines? limit p' rest := by
  have hend : lineEnd? ('\n' :: rest) = some rest := rfl
  simp only [lines?, hstart, hline, Option.bind_eq_bind, Option.bind_some, hend]

theorem trivia?_of_isKeyPart {c : Char} (hc : isKeyPart c = true) (t : Text) :
    trivia? false (c :: t) = some (c :: t) := by
  have hnewline : c ≠ '\n' := ne_of_isKeyPart hc (by decide)
  have hreturn : c ≠ '\r' := ne_of_isKeyPart hc (by decide)
  have hcomment : c ≠ '#' := ne_of_isKeyPart hc (by decide)
  simp [trivia?, hnewline, hreturn, hcomment, isBlank_of_isKeyPart hc]

theorem line?_of_isKeyPart {c : Char} (hc : isKeyPart c = true) (p : Progress) (t : Text) :
    line? p (c :: t) = entry? p (c :: t) := by
  have hopen : c ≠ '[' := ne_of_isKeyPart hc (by decide)
  unfold line?
  split
  · next heq => exact absurd (List.cons_eq_cons.mp heq).1 hopen
  · next heq => exact absurd (List.cons_eq_cons.mp heq).1 hopen
  · rfl

theorem entry?_bare (hkey : IsBareKey key) (hwritten : WrittenAs written v)
    (hinsert : Table.insertBelow? p.above [] key v p.entries = some es) (rest : Text) :
    entry? p (key ++ ' ' :: '=' :: ' ' :: (written ++ '\n' :: rest)) =
      some ({ p with entries := es }, '\n' :: rest) := by
  have hname : key? (key ++ ' ' :: '=' :: ' ' :: (written ++ '\n' :: rest)).length
      (key ++ ' ' :: '=' :: ' ' :: (written ++ '\n' :: rest)) =
        some ([], key, '=' :: ' ' :: (written ++ '\n' :: rest)) :=
    key?_bare hkey (by rintro c ⟨⟩; decide) (by simp [isBlank])
  have hsign : ∀ r : Text, Text.dropPrefix? ['='] ('=' :: r) = some r :=
    fun r => Text.dropPrefix?_eq_some_iff.mpr rfl
  have hgap : (' ' :: (written ++ '\n' :: rest)).dropWhile isBlank = written ++ '\n' :: rest := by
    have hhead := hwritten.isBlank_head
    cases written with
    | nil => rfl
    | cons c r =>
        have hc : isBlank c = false := hhead c rfl
        have hspace : isBlank ' ' = true := rfl
        simp [hspace, hc]
  simp only [hname, entry?, Option.bind_eq_bind, Option.bind_some, hsign, hgap,
    hwritten.value?_append, hinsert]
  rfl

theorem lines?_entry (hkey : IsBareKey key) (hwritten : WrittenAs written v)
    (hinsert : Table.insertBelow? p.above [] key v p.entries = some es) (limit : Nat)
    (rest : Text) :
    lines? (limit + 1) p (key ++ [' ', '=', ' '] ++ written ++ ['\n'] ++ rest) =
      lines? limit { p with entries := es } rest := by
  have hassoc : key ++ [' ', '=', ' '] ++ written ++ ['\n'] ++ rest =
      key ++ ' ' :: '=' :: ' ' :: (written ++ '\n' :: rest) := by simp
  have hentry := entry?_bare hkey hwritten hinsert rest
  rw [hassoc]
  obtain ⟨c, r, rfl⟩ := List.exists_cons_of_ne_nil hkey.1
  have hc : isKeyPart c = true := hkey.isKeyPart_of_mem c List.mem_cons_self
  rw [List.cons_append] at hentry ⊢
  apply lines?_of_line? (trivia?_of_isKeyPart hc _)
  rw [line?_of_isKeyPart hc, hentry]

theorem header?_bare (hkey : IsBareKey key)
    (hopen : Table.openHeader? false [] key p.entries = some es) (rest : Text) :
    header? false p (key ++ ']' :: '\n' :: rest) = some (⟨[key], es⟩, '\n' :: rest) := by
  have hname : key? (key ++ ']' :: '\n' :: rest).length (key ++ ']' :: '\n' :: rest) =
      some ([], key, ']' :: '\n' :: rest) :=
    key?_bare hkey (by rintro c ⟨⟩; decide) (by simp [isBlank])
  have hclose : ∀ r : Text, Text.dropPrefix? [']'] (']' :: r) = some r :=
    fun r => Text.dropPrefix?_eq_some_iff.mpr rfl
  simp only [header?, hname, Option.bind_eq_bind, Option.bind_some, Bool.false_eq_true, if_false,
    hclose, hopen]
  rfl

theorem lines?_header (hkey : IsBareKey key)
    (hopen : Table.openHeader? false [] key p.entries = some es) (limit : Nat) (rest : Text) :
    lines? (limit + 1) p ('[' :: key ++ [']', '\n'] ++ rest) = lines? limit ⟨[key], es⟩ rest := by
  have hassoc : '[' :: key ++ [']', '\n'] ++ rest = '[' :: (key ++ ']' :: '\n' :: rest) := by simp
  have hstart : ∀ t : Text, trivia? false ('[' :: t) = some ('[' :: t) := by
    intro t
    simp [trivia?, isBlank]
  have hline : line? p ('[' :: (key ++ ']' :: '\n' :: rest)) =
      header? false p (key ++ ']' :: '\n' :: rest) := by
    obtain ⟨c, r, rfl⟩ := List.exists_cons_of_ne_nil hkey.1
    have hc : c ≠ '[' := ne_of_isKeyPart (hkey.isKeyPart_of_mem c List.mem_cons_self) (by decide)
    unfold line?
    split
    · next heq =>
        rw [List.cons_append] at heq
        exact absurd (List.cons.inj (List.cons.inj heq).2).1 hc
    · next heq => rw [(List.cons.inj heq).2]
    · next hother => exact absurd rfl (hother _)
  rw [hassoc]
  apply lines?_of_line? (hstart _)
  rw [hline, header?_bare hkey hopen]

theorem lines?_newline (limit : Nat) (p : Progress) (rest : Text) :
    lines? limit p ('\n' :: rest) = lines? limit p rest := by
  cases limit with
  | zero => rfl
  | succ limit =>
      have hskip : trivia? false ('\n' :: rest) = trivia? false rest := by
        rw [trivia?, if_pos rfl]
      simp only [lines?, hskip]

end Reader

/-- A text without a byte order mark is read from its first line on. -/
theorem Entries.ofText?_of_head? {t : Text} (h : t.head? ≠ some '\uFEFF') :
    Entries.ofText? t = Reader.lines? (t.length + 1) ⟨[], []⟩ t := by
  have hmark : Text.dropPrefix? ['\uFEFF'] t = none := by
    cases t with
    | nil => rfl
    | cons c t =>
        have hc : '\uFEFF' ≠ c := by
          rintro rfl
          exact h rfl
        rw [Text.dropPrefix?, if_neg hc]
  rw [Entries.ofText?, hmark]
  rfl

end Marginalia.Toml

import Marginalia.Proofs.Text.Trim
import Marginalia.Toml.Quoted

/-!
# Quoted texts read back

Every text is written in some style of quotes, as it stands or with escapes, and
is read back from there whatever it holds.  `Written` is what may stand between
the marks of a style for a text.  The writer keeps to it: three marks in a row
never stand there, a backslash only before an escape.  The reader gives the text
back, also where marks of the text stand directly before the closing ones.
-/

namespace Marginalia.Toml

namespace Quoted

variable {s : QuoteStyle} {run : Nat} {c : Char} {e t written rest out : Text}

/-! ## What stands between the marks -/

/-- Behind a backslash `e` stands for the character `c`. -/
structure Escapes (e : Text) (c : Char) : Prop where
  escape?_append : ∀ r, escape? (e ++ r) = some (c, e.length)
  /-- No line ends directly behind the backslash. -/
  dropNewline?_append : ∀ r, dropNewline? ((e ++ r).dropWhile isBlank) = none

/-- What may stand between the marks of a style for a text, with `run` marks
directly before it. -/
inductive Written (s : QuoteStyle) : (run : Nat) → (written t : Text) → Prop
  | nil (run : Nat) : Written s run [] []
  | mark {run : Nat} {written t : Text} (hlong : s.long = true) (hrun : run < 2)
      (h : Written s (run + 1) written t) : Written s run (s.mark :: written) (s.mark :: t)
  | char {run : Nat} {c : Char} {written t : Text} (hmark : c ≠ s.mark)
      (hescapes : s.hasEscapes = true → c ≠ '\\')
      (hallowed : isForbidden c = false ∨ s.long = true ∧ c = '\n')
      (h : Written s 0 written t) : Written s run (c :: written) (c :: t)
  | escape {run : Nat} {c : Char} {e written t : Text} (hescapes : s.hasEscapes = true)
      (he : Escapes e c) (h : Written s 0 written t) :
      Written s run ('\\' :: (e ++ written)) (c :: t)

theorem mark_of_hasEscapes (h : s.hasEscapes = true) : s.mark = '"' :=
  beq_iff_eq.mp h

theorem backslash_ne_mark (h : s.hasEscapes = true) : '\\' ≠ s.mark := by
  rw [mark_of_hasEscapes h]
  decide

theorem dropNewline?_cons (hlf : c ≠ '\n') (hcr : c ≠ '\r') (r : Text) :
    dropNewline? (c :: r) = none := by
  rw [dropNewline?]
  · rintro r' h
    exact hlf (List.cons.inj h).1
  · rintro r' h
    exact hcr (List.cons.inj h).1

/-! ## Writing -/

theorem escapes_letter {d : Char} (hread : ∀ r, escape? (d :: r) = some (c, 1))
    (hblank : isBlank d = false) (hlf : d ≠ '\n') (hcr : d ≠ '\r') : Escapes [d] c := by
  constructor
  · exact hread
  · intro r
    rw [List.singleton_append, List.dropWhile_cons_of_neg (by simp [hblank])]
    exact dropNewline?_cons hlf hcr r

theorem escapes_code (hc : c.toNat < 0x80) :
    Escapes ('u' :: (Text.hex 4 c.toNat).map Char.toUpper) c := by
  have hdigits : ∀ n < 0x80, ((Text.hex 4 n).map Char.toUpper).length = 4 ∧
      Text.toNatBase? 16 ((Text.hex 4 n).map Char.toUpper) = some n := by
    decide +kernel
  obtain ⟨hlength, hvalue⟩ := hdigits c.toNat hc
  generalize (Text.hex 4 c.toNat).map Char.toUpper = digits at hlength hvalue
  constructor
  · intro r
    have hshort : ¬(digits ++ r).length < 4 := by
      rw [List.length_append]
      omega
    have htake : (digits ++ r).take 4 = digits := by
      rw [← hlength, List.take_left]
    have hread : escape? ('u' :: (digits ++ r)) = codePoint? 4 (digits ++ r) := rfl
    have hvalid : c.toNat.isValidChar := c.valid
    rw [List.cons_append, hread, codePoint?, if_neg hshort, htake, hvalue, Option.bind_some,
      if_pos hvalid, Char.ofNat_toNat, List.length_cons, hlength]
  · intro r
    rfl

theorem toNat_lt_of_isForbidden (hc : isForbidden c = true) : c.toNat < 0x80 := by
  simp only [isForbidden, Bool.or_eq_true, Bool.and_eq_true, decide_eq_true_eq, beq_iff_eq] at hc
  rcases hc with ⟨hlow, -⟩ | rfl
  · omega
  · decide

theorem exists_escaped (hc : isForbidden c = true ∨ c = '\t' ∨ c = '\\' ∨ c = '"') :
    ∃ e, escaped c = '\\' :: e ∧ Escapes e c := by
  have hletter : ∀ {d : Char}, (∀ r, escape? (d :: r) = some (c, 1)) → isBlank d = false →
      d ≠ '\n' → d ≠ '\r' → ∃ e, '\\' :: [d] = '\\' :: e ∧ Escapes e c :=
    fun hread hblank hlf hcr => ⟨_, rfl, escapes_letter hread hblank hlf hcr⟩
  have hcode : c.toNat < 0x80 := by
    rcases hc with hc | rfl | rfl | rfl
    · exact toNat_lt_of_isForbidden hc
    all_goals decide
  unfold escaped
  split
  · exact hletter (fun _ => rfl) (by decide) (by decide) (by decide)
  · exact hletter (fun _ => rfl) (by decide) (by decide) (by decide)
  · exact hletter (fun _ => rfl) (by decide) (by decide) (by decide)
  · exact hletter (fun _ => rfl) (by decide) (by decide) (by decide)
  · exact hletter (fun _ => rfl) (by decide) (by decide) (by decide)
  · exact hletter (fun _ => rfl) (by decide) (by decide) (by decide)
  · exact hletter (fun _ => rfl) (by decide) (by decide) (by decide)
  · exact ⟨_, rfl, escapes_code hcode⟩

/-- With escapes every text is written. -/
theorem written_escapeFrom (long : Bool) (run : Nat) (t : Text) :
    Written ⟨'"', long⟩ run (escapeFrom long run t) t := by
  have hescapes : QuoteStyle.hasEscapes ⟨'"', long⟩ = true := rfl
  have hescaped : ∀ {c : Char} {run : Nat} {written t : Text},
      isForbidden c = true ∨ c = '\t' ∨ c = '\\' ∨ c = '"' → Written ⟨'"', long⟩ 0 written t →
        Written ⟨'"', long⟩ run (escaped c ++ written) (c :: t) := by
    intro c run written t hc h
    obtain ⟨e, hwritten, he⟩ := exists_escaped hc
    rw [hwritten]
    exact .escape hescapes he h
  induction t generalizing run with
  | nil => exact .nil run
  | cons c t ih =>
      rw [escapeFrom]
      split_ifs with hquote hmark hstands
      · subst hquote
        exact .mark hmark.1 hmark.2 (ih (run + 1))
      · exact hescaped (Or.inr (Or.inr (Or.inr hquote))) (ih 0)
      · refine .char hquote (fun _ => ?_) ?_ (ih 0)
        · rcases hstands with ⟨rfl, -⟩ | hstands
          · decide
          · exact fun h => hstands (Or.inr (Or.inr h))
        · rcases hstands with ⟨hlf, hlong⟩ | hstands
          · exact Or.inr ⟨hlong, hlf⟩
          · exact Or.inl (by simpa using mt Or.inl hstands)
      · have hneeds : isForbidden c = true ∨ c = '\t' ∨ c = '\\' :=
          Decidable.not_not.mp fun h => hstands (Or.inr h)
        refine hescaped ?_ (ih 0)
        rcases hneeds with hc | hc | hc
        · exact Or.inl hc
        · exact Or.inr (Or.inl hc)
        · exact Or.inr (Or.inr (Or.inl hc))

theorem le_longestRun (mark : Char) (run : Nat) (t : Text) : run ≤ longestRun mark run t := by
  induction t generalizing run with
  | nil => exact Nat.le_refl run
  | cons c t ih =>
      rw [longestRun]
      split
      · exact Nat.le_trans (Nat.le_succ run) (ih (run + 1))
      · exact Nat.le_max_left run _

/-- Without escapes a text is written as it stands where the style suits it. -/
theorem written_self (hescapes : s.hasEscapes = false) (hcode : ∀ c ∈ t, needsCode c = false)
    (hlf : s.long = true ∨ '\n' ∉ t)
    (hrun : longestRun s.mark run t ≤ if s.long then 2 else 0) : Written s run t t := by
  induction t generalizing run with
  | nil => exact .nil run
  | cons c t ih =>
      obtain ⟨hc, hcode⟩ := List.forall_mem_cons.mp hcode
      have hlf' : s.long = true ∨ '\n' ∉ t :=
        hlf.imp_right fun h ht => h (List.mem_cons_of_mem c ht)
      rw [longestRun] at hrun
      split at hrun
      · next hmark =>
          have hlow := Nat.le_trans (le_longestRun s.mark (run + 1) t) hrun
          cases hlong : s.long with
          | false => simp [hlong] at hlow
          | true =>
              rw [hlong, if_pos rfl] at hlow
              rw [hmark]
              exact .mark hlong (by omega) (ih hcode hlf' hrun)
      · next hmark =>
          refine .char hmark (by simp [hescapes]) ?_ (ih hcode hlf' (Nat.max_le.mp hrun).2)
          cases hforbidden : isForbidden c with
          | false => exact Or.inl rfl
          | true =>
              have hnewline : c = '\n' := by simpa [needsCode, hforbidden] using hc
              refine Or.inr ⟨hlf.resolve_right fun h => h ?_, hnewline⟩
              rw [hnewline]
              exact List.mem_cons_self

/-- What is written between the marks of the style that a text gets. -/
theorem written_inside (t : Text) :
    Written (styleOf t) 0 (if (styleOf t).hasEscapes then escapeFrom (styleOf t).long 0 t else t)
      t := by
  cases hescapes : (styleOf t).hasEscapes with
  | true =>
      have hwritten := written_escapeFrom (styleOf t).long 0 t
      have hstyle : styleOf t = ⟨'"', (styleOf t).long⟩ := by
        rw [← mark_of_hasEscapes hescapes]
      rw [if_pos rfl]
      rwa [← hstyle] at hwritten
  | false =>
      have hsuits : suits t (styleOf t) = true := by
        unfold styleOf at hescapes ⊢
        cases hfind : styles.find? (suits t) with
        | none => simp [hfind, QuoteStyle.hasEscapes] at hescapes
        | some s => exact List.find?_some hfind
      simp only [suits, Bool.and_eq_true, Bool.not_eq_true', List.any_eq_false, Bool.or_eq_true,
        decide_eq_true_eq] at hsuits
      obtain ⟨⟨⟨hcode, -⟩, hlf⟩, hrun⟩ := hsuits
      rw [if_neg (by decide)]
      refine written_self hescapes (fun c hc => by simpa using hcode c hc) ?_ hrun
      exact hlf.imp_right fun h => by simpa using h

/-! ## Reading -/

theorem readFrom_skip (x r : Text) :
    readFrom s out x.length false (x ++ r) = readFrom s out 0 false r := by
  induction x with
  | nil => rfl
  | cons c x ih =>
      rw [List.cons_append, List.length_cons, readFrom, if_pos (Nat.succ_pos _),
        Nat.add_sub_cancel, ih]

theorem readFrom_char (hmark : c ≠ s.mark) (hescapes : s.hasEscapes = true → c ≠ '\\')
    (hallowed : isForbidden c = false ∨ s.long = true ∧ c = '\n') (r : Text) :
    readFrom s out 0 false (c :: r) = readFrom s (c :: out) 0 false r := by
  have hescape : (c = '\\' && s.hasEscapes) = false := by
    cases hs : s.hasEscapes with
    | false => exact Bool.and_false _
    | true => simp [hescapes hs]
  have hcr : c ≠ '\r' := by
    rintro rfl
    rcases hallowed with hallowed | ⟨-, hlf⟩
    · exact absurd hallowed (by decide)
    · exact absurd hlf (by decide)
  rw [readFrom, if_neg (Nat.lt_irrefl 0), Bool.false_and, if_neg (by decide), if_neg hmark]
  simp only [hescape, Bool.false_eq_true, if_false, hcr]
  split
  · rfl
  · next hstop =>
      refine if_neg ?_
      rcases hallowed with hallowed | ⟨hlong, rfl⟩
      · simp [hallowed]
      · simp [hlong, dropNewline?] at hstop

theorem readFrom_escape (hescapes : s.hasEscapes = true) (he : Escapes e c) (r : Text) :
    readFrom s out 0 false ('\\' :: (e ++ r)) = readFrom s (c :: out) 0 false r := by
  rw [readFrom, if_neg (Nat.lt_irrefl 0), Bool.false_and, if_neg (by decide),
    if_neg (backslash_ne_mark hescapes)]
  simp only [hescapes, Bool.and_true, decide_true, if_true, he.dropNewline?_append,
    Option.isSome_none, Bool.and_false, Bool.false_eq_true, if_false, he.escape?_append]
  exact readFrom_skip e r

/-- A mark of a long text that fewer than two marks follow belongs to the text;
of more the last three close it. -/
theorem readFrom_mark (hlong : s.long = true) (r : Text) :
    readFrom s out 0 false (s.mark :: r) =
      if (r.takeWhile (· == s.mark)).length < 2 then readFrom s (s.mark :: out) 0 false r
      else
        some (out.reverse ++
            List.replicate (min ((r.takeWhile (· == s.mark)).length - 2) 2) s.mark,
          r.drop (2 + min ((r.takeWhile (· == s.mark)).length - 2) 2)) := by
  rw [readFrom, if_neg (Nat.lt_irrefl 0), Bool.false_and, if_neg (by decide), if_pos rfl,
    if_neg (by simp [hlong])]

theorem takeWhile_marks (hrest : rest.head? ≠ some s.mark) (n : Nat) :
    ((List.replicate n s.mark ++ rest).takeWhile (· == s.mark)).length = n := by
  have hstop : ∀ c ∈ rest.head?, (c == s.mark) = false := by
    rintro c hc
    rw [beq_eq_false_iff_ne]
    rintro rfl
    exact hrest hc
  rw [Text.takeWhile_append_of_head? (by simp) hstop, List.length_replicate]

theorem delimiter_of_long (hlong : s.long = true) : s.delimiter = List.replicate 3 s.mark := by
  rw [QuoteStyle.delimiter, hlong, if_pos rfl]

/-- Behind a mark of the text the closing marks stand at once or behind one more
mark, or the marks end before there are two of them. -/
theorem Written.marks_cases (h : Written s (run + 1) written t) (r : Text) :
    (∃ n, n ≤ 1 ∧ written = List.replicate n s.mark ∧ t = List.replicate n s.mark) ∨
      ((written ++ r).takeWhile (· == s.mark)).length < 2 := by
  have hstop : ∀ {c : Char} {x : Text}, c ≠ s.mark →
      ((c :: x).takeWhile (· == s.mark)).length = 0 := by
    intro c x hc
    simp [hc]
  cases h with
  | nil => exact Or.inl ⟨0, Nat.zero_le 1, rfl, rfl⟩
  | char hmark => exact Or.inr (by rw [List.cons_append, hstop hmark]; decide)
  | escape hescapes =>
      exact Or.inr (by rw [List.cons_append, hstop (backslash_ne_mark hescapes)]; decide)
  | @mark _ written t _ hrun h =>
      have hone : ∀ x : Text, ((s.mark :: x).takeWhile (· == s.mark)).length =
          (x.takeWhile (· == s.mark)).length + 1 := by
        intro x
        simp
      rw [List.cons_append, hone]
      cases h with
      | nil => exact Or.inl ⟨1, Nat.le_refl 1, rfl, rfl⟩
      | mark _ hrun' => omega
      | char hmark => exact Or.inr (by rw [List.cons_append, hstop hmark]; decide)
      | escape hescapes =>
          exact Or.inr (by rw [List.cons_append, hstop (backslash_ne_mark hescapes)]; decide)

/-- Marks of the text before the closing ones. -/
theorem readFrom_marks (hlong : s.long = true) (hrest : rest.head? ≠ some s.mark) {n : Nat}
    (hn : n ≤ 2) :
    readFrom s out 0 false (List.replicate n s.mark ++ (s.delimiter ++ rest)) =
      some (out.reverse ++ List.replicate n s.mark, rest) := by
  have hmarks : List.replicate n s.mark ++ (s.delimiter ++ rest) =
      s.mark :: (List.replicate (n + 2) s.mark ++ rest) := by
    rw [delimiter_of_long hlong, ← List.append_assoc, List.replicate_append_replicate,
      ← List.cons_append, ← List.replicate_succ]
  have hdrop : (List.replicate (n + 2) s.mark ++ rest).drop (2 + n) = rest := by
    rw [Nat.add_comm 2 n]
    exact List.drop_left' List.length_replicate
  have hextra : min (n + 2 - 2) 2 = n := by omega
  rw [hmarks, readFrom_mark hlong, takeWhile_marks hrest, if_neg (by omega), hextra, hdrop]

/-- What is written for a text is read back up to the closing marks. -/
theorem Written.readFrom_eq (h : Written s run written t) (hrest : rest.head? ≠ some s.mark)
    (out : Text) :
    readFrom s out 0 false (written ++ (s.delimiter ++ rest)) = some (out.reverse ++ t, rest) := by
  induction h generalizing out with
  | nil =>
      cases hlong : s.long with
      | true => exact readFrom_marks hlong hrest (Nat.zero_le 2)
      | false =>
          have hmark : s.delimiter = [s.mark] := by simp [QuoteStyle.delimiter, hlong]
          rw [List.nil_append, hmark, List.singleton_append, readFrom, if_neg (Nat.lt_irrefl 0),
            Bool.false_and, if_neg (by decide), if_pos rfl, if_pos (by simp [hlong]),
            List.append_nil]
  | @mark run written t hlong hrun h ih =>
      rcases h.marks_cases (s.delimiter ++ rest) with ⟨n, hn, rfl, rfl⟩ | hfew
      · rw [← List.replicate_succ]
        exact readFrom_marks hlong hrest (Nat.succ_le_succ hn)
      · rw [List.cons_append, readFrom_mark hlong, if_pos hfew, ih, List.reverse_cons,
          List.append_assoc, List.singleton_append]
  | char hmark hescapes hallowed h ih =>
      rw [List.cons_append, readFrom_char hmark hescapes hallowed, ih, List.reverse_cons,
        List.append_assoc, List.singleton_append]
  | escape hescapes he h ih =>
      rw [List.cons_append, List.append_assoc, readFrom_escape hescapes he, ih, List.reverse_cons,
        List.append_assoc, List.singleton_append]

/-! ## The whole text -/

theorem mark_styleOf (t : Text) : (styleOf t).mark = '"' ∨ (styleOf t).mark = '\'' := by
  unfold styleOf
  cases hfind : styles.find? (suits t) with
  | none => exact Or.inl rfl
  | some s =>
      have hmem : s ∈ styles := List.mem_of_find?_eq_some hfind
      have hmarks : ∀ s ∈ styles, s.mark = '"' ∨ s.mark = '\'' := by decide
      exact hmarks s hmem

theorem read?_short (hmark : s.mark = '"' ∨ s.mark = '\'') (hlong : s.long = false)
    (h : Written s 0 written t) (hrest : rest.head? ≠ some s.mark) :
    read? (s.mark :: (written ++ s.mark :: rest)) = some (t, rest) := by
  have hread := h.readFrom_eq hrest []
  have htwo : ∀ r, written ++ s.mark :: rest ≠ s.mark :: s.mark :: r := by
    intro r hr
    cases h with
    | nil => exact hrest (by rw [(List.cons.inj hr).2]; rfl)
    | mark hlong' => exact absurd hlong' (by simp [hlong])
    | char hne => exact hne (List.cons.inj hr).1
    | escape hescapes => exact backslash_ne_mark hescapes (List.cons.inj hr).1
  obtain ⟨mark, long⟩ := s
  obtain rfl : long = false := hlong
  have hshort : short? mark (mark :: (written ++ mark :: rest)) = some (t, rest) := by
    rw [short?, Text.dropPrefix?, if_pos rfl]
    exact hread
  rcases hmark with rfl | rfl
  · unfold read?
    split
    · next heq => exact absurd (List.cons.inj heq).2 (htwo _)
    · exact hshort
    · next heq => exact absurd (List.cons.inj heq).1 (by decide)
    · next heq => exact absurd (List.cons.inj heq).1 (by decide)
    · next _ hother _ _ => exact absurd rfl (hother _)
  · unfold read?
    split
    · next heq => exact absurd (List.cons.inj heq).1 (by decide)
    · next heq => exact absurd (List.cons.inj heq).1 (by decide)
    · next heq => exact absurd (List.cons.inj heq).2 (htwo _)
    · exact hshort
    · next _ _ _ hother => exact absurd rfl (hother _)

/-- Without a line feed in the text no line ends directly behind the opening
marks. -/
theorem Written.dropNewline?_eq_none (h : Written s run written t)
    (hmark : s.mark = '"' ∨ s.mark = '\'') (hlf : '\n' ∉ t) (hlong : s.long = true) :
    dropNewline? (written ++ (s.delimiter ++ rest)) = none := by
  have hne : s.mark ≠ '\n' ∧ s.mark ≠ '\r' := by
    rcases hmark with hmark | hmark <;>
    · rw [hmark]
      decide
  cases h with
  | nil =>
      rw [delimiter_of_long hlong]
      exact dropNewline?_cons hne.1 hne.2 _
  | mark => exact dropNewline?_cons hne.1 hne.2 _
  | escape => exact dropNewline?_cons (by decide) (by decide) _
  | char _ _ hallowed =>
      refine dropNewline?_cons ?_ ?_ _
      · rintro rfl
        exact hlf List.mem_cons_self
      · rintro rfl
        rcases hallowed with hallowed | ⟨-, hcr⟩
        · exact absurd hallowed (by decide)
        · exact absurd hcr (by decide)

theorem read?_long (hmark : s.mark = '"' ∨ s.mark = '\'') (hlong : s.long = true)
    (h : Written s 0 written t) (hrest : rest.head? ≠ some s.mark) :
    read? (s.delimiter ++ ((if '\n' ∈ t then ['\n'] else []) ++
      (written ++ (s.delimiter ++ rest)))) = some (t, rest) := by
  have hread := h.readFrom_eq hrest []
  have hfirst : ∀ y : Text, y = (if '\n' ∈ t then ['\n'] else []) ++
      (written ++ (s.delimiter ++ rest)) →
      (dropNewline? y).getD y = written ++ (s.delimiter ++ rest) := by
    rintro y rfl
    split
    · rfl
    · next hlf =>
        rw [List.nil_append, h.dropNewline?_eq_none hmark hlf hlong]
        rfl
  have hopen : ∀ y : Text, read? (s.delimiter ++ y) =
      readFrom s [] 0 false ((dropNewline? y).getD y) := by
    intro y
    obtain ⟨mark, long⟩ := s
    obtain rfl : long = true := hlong
    rcases hmark with rfl | rfl <;> rfl
  rw [hopen, hfirst _ rfl]
  exact hread

theorem exists_write_eq_cons (t : Text) :
    ∃ mark r, write t = mark :: r ∧ (mark = '"' ∨ mark = '\'') := by
  have hopen : ∃ r, (styleOf t).delimiter = (styleOf t).mark :: r := by
    rw [QuoteStyle.delimiter]
    split
    · exact ⟨_, rfl⟩
    · exact ⟨_, rfl⟩
  obtain ⟨r, hr⟩ := hopen
  have hwrite : ∃ r', write t = (styleOf t).mark :: r' := by
    rw [write]
    simp only [hr, List.cons_append]
    exact ⟨_, rfl⟩
  obtain ⟨r', hr'⟩ := hwrite
  exact ⟨_, r', hr', mark_styleOf t⟩

/-- Every text is read back from its quotes, when what follows does not begin
with one. -/
theorem read?_write (t : Text) (hrest : ∀ c ∈ rest.head?, c ≠ '"' ∧ c ≠ '\'') :
    read? (write t ++ rest) = some (t, rest) := by
  have hmark := mark_styleOf t
  have hwritten := written_inside t
  have hstop : rest.head? ≠ some (styleOf t).mark := by
    intro hhead
    obtain ⟨hdouble, hsingle⟩ := hrest _ hhead
    rcases hmark with hmark | hmark
    · exact hdouble hmark
    · exact hsingle hmark
  rw [write]
  cases hlong : (styleOf t).long with
  | false =>
      have hread := read?_short hmark hlong hwritten hstop
      have hdelimiter : (styleOf t).delimiter = [(styleOf t).mark] := by
        simp [QuoteStyle.delimiter, hlong]
      rw [hlong] at hread
      simpa [hdelimiter, hlong] using hread
  | true =>
      have hread := read?_long hmark hlong hwritten hstop
      rw [hlong] at hread
      simpa [hlong] using hread

end Quoted

end Marginalia.Toml

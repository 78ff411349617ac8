import Marginalia.Proofs.Yaml.ListTwice
import Marginalia.Proofs.Yaml.Notes
import Marginalia.Proofs.Yaml.Spelling

/-!
# Names and notes in the lines of a block

An entry of an order list or of a flag map is one line: a name, spelled in one
of the ways of a string, and perhaps a note at the end.  The patcher finds name
and note anew, without the reader.  It finds them where the name stands in the
line as it is, bare or between quotes; a name that is spelled in another way it
takes for another name.
-/

namespace Marginalia.Yaml

open CharClass
open Source (isBlank endsLine)
open Scan (IsNote)

/-! ## The end of a value position -/

namespace Scalar

open CommentState

/-- What stands behind a value is a note, or blanks where there is none. -/
def Trails (tail note : Text) : Prop :=
  tail = note ∨ note = [] ∧ ∀ c ∈ tail, isBlank c = true

theorem isWhite_of_isBlank {c : Char} (hc : isBlank c = true) : isWhite c = true := by
  rw [isBlank, Bool.or_eq_true, beq_iff_eq, beq_iff_eq] at hc
  rcases hc with rfl | rfl <;> decide

theorem isComment_of_isNote {note : Text} (h : IsNote note) : IsComment note := by
  rcases h with rfl | ⟨blanks, r, rfl, hne, hblanks, -⟩
  · exact Or.inl rfl
  · exact Or.inr ⟨blanks, r, hne, fun c hc => isWhite_of_isBlank (hblanks c hc), rfl⟩

theorem Whole.append_white {v gap : Text} (h : Whole v) (hgap : ∀ c ∈ gap, isWhite c = true) :
    Whole (v ++ gap) := by
  obtain ⟨w, hw⟩ := h
  by_cases hnil : gap = []
  · rw [hnil, List.append_nil]
    exact ⟨w, hw⟩
  · exact ⟨true, hw.append (crosses_white hgap (Or.inl hnil))⟩

theorem Whole.white_append {v gap : Text} (h : Whole v) (hgap : ∀ c ∈ gap, isWhite c = true) :
    Whole (gap ++ v) := by
  obtain ⟨w, hw⟩ := h
  exact ⟨w, (crosses_white hgap (Or.inr rfl)).append hw⟩

theorem Whole.splitComment_append {v tail note : Text} (h : Whole v)
    (hlast : ∀ c ∈ v.getLast?, isWhite c = false) (hnote : IsNote note) (htail : Trails tail note) :
    splitComment (v ++ tail) = (v, note) := by
  have htrim := Text.trimEnd_of_getLast? hlast
  rcases htail with rfl | ⟨rfl, hblanks⟩
  · obtain ⟨w, hw⟩ := h
    have hend := Text.endWhite_eq_nil_iff.mpr hlast
    rw [Scalar.splitComment_append hw (isComment_of_isNote hnote), htrim, hend, List.nil_append]
    split
    · next hnil => rw [hnil]
    · rfl
  · have hwhite : ∀ c ∈ tail, isWhite c = true := fun c hc => isWhite_of_isBlank (hblanks c hc)
    obtain ⟨w, hw⟩ := h.append_white hwhite
    rw [splitComment_of_crosses hw, Text.trimEnd_append_of_white hwhite, htrim]

/-- A comment that is found has a number sign, and before it stands a whole
value. -/
theorem whole_of_snd_splitComment_ne_nil {t : Text} (h : (splitComment t).2 ≠ []) :
    Whole (splitComment t).1 ∧ (splitComment t).1 ++ (splitComment t).2 = t ∧
      0 < Text.weight (splitComment t).2 := by
  rcases exists_crosses .start t with ⟨s, hnone⟩ | ⟨lead, r, s, rfl, hlead, hopens⟩
  · rw [splitComment_of_crosses hnone] at h
    exact absurd rfl h
  · rw [splitComment_numberSign hlead hopens]
    have hsplit := Text.trimEnd_append_endWhite lead
    have hsign : isWhite '#' = false := by decide
    refine ⟨?_, ?_, ?_⟩
    · rw [← hsplit] at hlead
      have hfirst := hlead.of_append.1
      have hend := hlead.after_eq
      -- white space neither opens nor closes quotes
      have houtside : ((outside true).after (Text.trimEnd lead)).isOutside = true := by
        have hwhite := isOutside_after (CommentState.start.after (Text.trimEnd lead))
          fun c => Text.isWhite_of_mem_endWhite (t := lead)
        rw [← after_append, hend] at hwhite
        have hs : s.isOutside = true := by
          by_contra hinside
          rw [opensComment_eq_false s (Bool.eq_false_iff.mpr hinside)] at hopens
          cases hopens
        rw [hs] at hwhite
        exact hwhite.symm
      obtain ⟨w, hw⟩ := ((quotesClosed_iff true).mpr houtside).exists_after true
      exact ⟨w, hw ▸ hfirst⟩
    · rw [← List.append_assoc, hsplit]
    · rw [Text.weight_append, Text.weight_cons, hsign]
      simp only [Bool.false_eq_true, reduceIte]
      omega

end Scalar

/-! ## Lines of entries -/

namespace Patch

open Token (mark Encloses)
open Scalar (Spells Trails Whole)

/-- The line of an entry: behind the padding stands a dash and the name, or the
name with a colon and a flag.  What `tail` is belongs to neither. -/
inductive LaysOut (indent : Nat) (name tail : Text) : BodyKind → Text → Prop
  | item {gap : Text} (hne : gap ≠ []) (hgap : ∀ c ∈ gap, c = ' ') :
      LaysOut indent name tail .sequence
        (List.replicate indent ' ' ++ '-' :: (gap ++ name ++ tail))
  | flag {gap value : Text} (hgap : ∀ c ∈ gap, isBlank c = true)
      (hcloses : LineKind.closesKey (value ++ tail) = true) (hvalue : Whole value)
      (hlast : ∀ c ∈ value.getLast?, isWhite c = false) :
      LaysOut indent name tail .mapping
        (List.replicate indent ' ' ++ (name ++ gap ++ ':' :: (value ++ tail)))

/-- An entry of a block on a line of its own. -/
structure EntryLine (kind : BodyKind) (indent : Nat) where
  line : Line
  name : Text
  /-- The name as it is spelled. -/
  token : Text
  /-- What stands behind the entry. -/
  tail : Text
  note : Text
  spells : Spells name token
  layout : LaysOut indent token tail kind line.content
  isNote : IsNote note
  trails : Trails tail note
  /-- The reader takes the line for one line. -/
  inline : ∀ c ∈ line.content, endsLine c = false

/-- A name stands in its line as it is, where the patcher looks for it. -/
inductive Stands (name : Text) : BodyKind → Text → Prop
  | bareItem (hends : Text.Bare name) (hwhole : Whole name) : Stands name .sequence name
  | quotedItem (double : Bool) : Stands name .sequence (mark double :: (name ++ [mark double]))
  | bareKey (hends : Text.Bare name) (hinside : ∀ c ∈ name.tail, LineKind.isBareKeyChar c = true)
      (hdash : name.head? = some '-' → ∃ c ∈ name.tail.head?, isWhite c = false) :
      Stands name .mapping name
  | quotedKey (double : Bool) (hlast : ∀ c ∈ name.getLast?, isWhite c = false) :
      Stands name .mapping (mark double :: (name ++ [mark double]))

/-! ## What the patcher finds in a line -/

section Item

variable {indent : Nat} {l : Line} {gap token tail : Text}

theorem itemNote?_ofLine (hne : gap ≠ []) (hgap : ∀ c ∈ gap, c = ' ')
    (hl : l.content = List.replicate indent ' ' ++ '-' :: (gap ++ token ++ tail)) :
    itemNote? indent (.ofLine l) =
      some (unquote (Text.trim (Scalar.splitComment (gap ++ token ++ tail)).1),
        (Scalar.splitComment (gap ++ token ++ tail)).2) := by
  obtain ⟨c, more, rfl⟩ := List.exists_cons_of_ne_nil hne
  obtain rfl : c = ' ' := hgap c (List.mem_cons_self ..)
  have hdash : l.content = List.replicate indent ' ' ++ '-' :: ' ' :: (more ++ token ++ tail) := by
    simpa using hl
  obtain ⟨hindent, hitem⟩ := OutlineLine.isItem_ofLine_dash hdash
  have hline : (OutlineLine.ofLine l).line = l := rfl
  have htrim : Text.trimStart l.content = ['-'] ++ (' ' :: more ++ token ++ tail) := by
    have hspaces : ∀ c ∈ List.replicate indent ' ', isWhite c = true := fun c hc => by
      rw [List.eq_of_mem_replicate hc]
      decide
    rw [hl, Text.trimStart, List.dropWhile_append_of_pos hspaces]
    rfl
  rw [itemNote?, if_pos ⟨hindent, hitem⟩, hline, Text.dropPrefix?_eq_some_iff.mpr htrim]
  rfl

variable {name note : Text} (hspells : Spells name token)
  (hinline : ∀ c ∈ token, Source.isBreak c = false)

include hspells hinline

theorem Stands.whole (h : Stands name .sequence token) :
    Whole token ∧ Text.Bare token ∧ unquote token = name := by
  cases h with
  | bareItem hends hwhole =>
      obtain ⟨c, r, rfl, hdouble, hsingle, -⟩ := hspells.exists_of_self hinline
      exact ⟨hwhole, hends, unquote_of_bare hdouble hsingle r⟩
  | quotedItem double =>
      have hself := hspells.encloses_self fun c hc => hinline c (by simp [hc])
      exact ⟨Scalar.whole_of_encloses hself, Token.bare_quoted double name,
        unquote_quoted double name⟩

variable (hgap : ∀ c ∈ gap, c = ' ') (htail : Trails tail note)

include hgap htail

/-- The patcher finds a name that stands as it is, with its note. -/
theorem Stands.splitComment_item (hnote : IsNote note) (h : Stands name .sequence token) :
    (unquote (Text.trim (Scalar.splitComment (gap ++ token ++ tail)).1),
      (Scalar.splitComment (gap ++ token ++ tail)).2) = (name, note) := by
  obtain ⟨hwhole, hends, hname⟩ := h.whole hspells hinline
  have hwhite : ∀ c ∈ gap, isWhite c = true := fun c hc => by
    rw [hgap c hc]
    decide
  have hne : token ≠ [] := by
    rintro rfl
    cases h with
    | bareItem =>
        obtain ⟨c, r, hnil, -⟩ := hspells.exists_of_self hinline
        cases hnil
  have hlast : ∀ c ∈ (gap ++ token).getLast?, isWhite c = false := by
    rw [List.getLast?_append_of_ne_nil _ hne]
    exact hends.2
  rw [(hwhole.white_append hwhite).splitComment_append hlast hnote htail,
    Text.trim_append_of_white hwhite, Text.trim_of_bare hends, hname]

/-- A note that the patcher finds behind the name stands behind a name that
stands as it is. -/
theorem stands_of_splitComment_item (hsome : note ≠ [])
    (h : (unquote (Text.trim (Scalar.splitComment (gap ++ token ++ tail)).1),
      (Scalar.splitComment (gap ++ token ++ tail)).2) = (name, note)) :
    Stands name .sequence token := by
  obtain ⟨hname, hcomment⟩ := Prod.mk.inj h
  have htail' : tail = note := htail.resolve_right fun hnone => hsome hnone.1
  have hwhite : ∀ c ∈ gap, isWhite c = true := fun c hc => by
    rw [hgap c hc]
    decide
  obtain ⟨⟨w, hw⟩, hsplit, -⟩ := Scalar.whole_of_snd_splitComment_ne_nil
    (by rw [hcomment]; exact hsome : (Scalar.splitComment (gap ++ token ++ tail)).2 ≠ [])
  have hvalue : (Scalar.splitComment (gap ++ token ++ tail)).1 = gap ++ token := by
    rw [hcomment, ← htail'] at hsplit
    exact List.append_cancel_right hsplit
  rw [hvalue, Text.trim_append_of_white hwhite] at hname
  rw [hvalue] at hw
  have hwhole : Whole token := by
    have hrest := hw.of_append.2
    have hspaces : (Scalar.CommentState.start).after gap = .start := by
      have hcrosses : Scalar.Crosses (.outside true) gap (.outside true) :=
        Scalar.crosses_white hwhite (Or.inr rfl)
      exact hcrosses.after_eq
    rw [hspaces] at hrest
    exact ⟨w, hrest⟩
  rcases hspells.cases hinline with ⟨rfl, c, r, rfl, hdouble, hsingle, -⟩ |
    ⟨double, written, rfl, hwritten⟩
  · refine .bareItem ?_ hwhole
    rcases unquote_cases (Text.trim (c :: r)) with hsame | ⟨double, hquoted⟩
    · rw [hsame] at hname
      rw [← hname]
      exact Text.bare_trim _
    · -- quotes weigh more than what they enclose
      have hweight := congrArg Text.weight hquoted
      rw [hname, Text.weight_trim, Token.weight_quoted] at hweight
      omega
  · rw [Text.trim_of_bare (Token.bare_quoted double written), unquote_quoted] at hname
    rw [hname]
    exact .quotedItem double

theorem snd_splitComment_item_of_note_eq_nil (hnote : IsNote note) (hnone : note = [])
    (h : unquote (Text.trim (Scalar.splitComment (gap ++ token ++ tail)).1) = name) :
    (Scalar.splitComment (gap ++ token ++ tail)).2 = [] := by
  have hwhite : ∀ c ∈ gap, isWhite c = true := fun c hc => by
    rw [hgap c hc]
    decide
  by_contra hsome
  obtain ⟨-, hsplit, hheavy⟩ := Scalar.whole_of_snd_splitComment_ne_nil hsome
  rcases hspells.cases hinline with ⟨rfl, -⟩ | ⟨double, written, rfl, hwritten⟩
  · -- the number sign of a comment would be missing in the name
    have htailWhite : ∀ c ∈ tail, isWhite c = true := by
      rcases htail with rfl | ⟨-, hblanks⟩
      · simp [hnone]
      · exact fun c hc => Scalar.isWhite_of_isBlank (hblanks c hc)
    have hweight := congrArg Text.weight hsplit
    have hle := weight_unquote_le (Text.trim (Scalar.splitComment (gap ++ token ++ tail)).1)
    rw [h, Text.weight_trim] at hle
    simp only [Text.weight_append, Text.weight_eq_zero hwhite, Text.weight_eq_zero htailWhite]
      at hweight
    omega
  · have hlast : ∀ c ∈ (gap ++ mark double :: (written ++ [mark double])).getLast?,
        isWhite c = false := by
      rw [List.getLast?_append_of_ne_nil _ (List.cons_ne_nil _ _)]
      exact (Token.bare_quoted double written).2
    have hwhole := (Scalar.whole_of_encloses hwritten).white_append hwhite
    rw [hwhole.splitComment_append hlast hnote htail] at hsome
    exact hsome hnone

end Item

end Patch

namespace LineKind

/-! ## Bare and quoted keys -/

variable {c : Char} {r : Text} {found : Text × Text}

theorem keyFrom?_mark (double : Bool) :
    keyFrom? (Token.mark double) = quotedKey? (Token.mark double) := by
  cases double <;> rfl

theorem keyFrom?_bare_iff (hdouble : c ≠ '"') (hsingle : c ≠ '\'') :
    keyFrom? c r = some found ↔ bareKey? c r = some found ∧ opensNoBareKey c = false ∧
      (c = '-' → ∃ d ∈ r.head?, isWhite d = false ∧ isBareKeyChar d = true) := by
  rw [keyFrom?, if_neg hdouble, if_neg hsingle]
  by_cases hdash : c = '-'
  · subst hdash
    have hopens : opensNoBareKey '-' = false := by decide
    rw [if_pos rfl]
    cases r with
    | nil => simp [dashedKey?]
    | cons d r =>
        by_cases hd : (isWhite d || d == ':' || d == '#') = true
        · have hnone : ¬(isWhite d = false ∧ isBareKeyChar d = true) := by
            simp only [isBareKeyChar, Bool.and_eq_true, bne_iff_ne, Bool.or_eq_true,
              beq_iff_eq] at hd ⊢
            rintro ⟨hwhite, hcolon, hsign⟩
            rcases hd with (hd | hd) | hd
            · rw [hwhite] at hd
              cases hd
            · exact hcolon hd
            · exact hsign hd
          simp [dashedKey?, hd, hnone]
        · have hsome : isWhite d = false ∧ isBareKeyChar d = true := by
            simpa [isBareKeyChar, and_assoc] using hd
          have hread : dashedKey? (d :: r) = bareKey? '-' (d :: r) := if_neg hd
          rw [hread]
          simp [hsome, hopens]
  · rw [if_neg hdash]
    cases hopens : opensNoBareKey c <;> simp [hdash]

theorem unquoteKey_quoted (double : Bool) (inside : Text) :
    unquoteKey (Token.mark double :: (inside ++ [Token.mark double])) = Text.trimEnd inside :=
  congrArg Text.trimEnd (Patch.unquote_quoted double inside)

theorem unquoteKey_bare (hdouble : c ≠ '"') (hsingle : c ≠ '\'') (hc : isWhite c = false)
    (run : Text) : unquoteKey (c :: Text.trimEnd run) = c :: Text.trimEnd run := by
  have htrim : Text.trimEnd (c :: Text.trimEnd run) = c :: Text.trimEnd run := by
    rw [Text.trimEnd_cons_of_not_white hc, Text.trimEnd_trimEnd]
  exact (congrArg Text.trimEnd (Patch.unquote_of_bare hdouble hsingle _)).trans htrim

end LineKind

namespace Patch

open Token (mark Encloses)
open Scalar (Spells Trails Whole)
open LineKind (closesKey)

section Flag

variable {indent : Nat} {l : Line} {name token gap rest : Text} (hspells : Spells name token)
  (hinline : ∀ c ∈ token, Source.isBreak c = false) (hgap : ∀ c ∈ gap, isBlank c = true)
  (hl : l.content = List.replicate indent ' ' ++ (token ++ gap ++ ':' :: rest))

include hspells hinline hl

theorem ofLine_flag : OutlineLine.ofLine l =
    ⟨l, indent, LineKind.ofBody indent (token ++ gap ++ ':' :: rest)⟩ := by
  refine OutlineLine.ofLine_of_content hl ?_
  rcases hspells.cases hinline with ⟨rfl, c, r, rfl, -, -, -, hspace⟩ | ⟨double, written, rfl, -⟩
  · simpa using hspace
  · cases double <;> simp [mark]

include hgap

theorem Stands.exists_keyToken? (hcloses : closesKey rest = true)
    (h : Stands name .mapping token) :
    ∃ found, LineKind.keyToken? (token ++ gap ++ ':' :: rest) =
        some (found, token ++ gap ++ [':']) ∧ LineKind.unquoteKey found = name := by
  have hwhite : ∀ c ∈ gap, isWhite c = true := fun c hc => Scalar.isWhite_of_isBlank (hgap c hc)
  cases h with
  | bareKey hends hinside hdash =>
      obtain ⟨c, r, rfl, hdouble, hsingle, hsign, -⟩ := hspells.exists_of_self hinline
      have hc : isWhite c = false := hends.1 c rfl
      have hrun : ∀ d ∈ r ++ gap, LineKind.isBareKeyChar d = true := by
        intro d hd
        rcases List.mem_append.mp hd with hd | hd
        · exact hinside d hd
        · have hblank := hgap d hd
          rw [isBlank, Bool.or_eq_true, beq_iff_eq, beq_iff_eq] at hblank
          rcases hblank with rfl | rfl <;> decide
      have hopens : LineKind.opensNoBareKey c = false := by
        simp [LineKind.opensNoBareKey, hc, hsign]
      refine ⟨c :: Text.trimEnd (r ++ gap), ?_, ?_⟩
      · rw [List.cons_append, List.cons_append, LineKind.keyToken?_cons,
          LineKind.keyFrom?_bare_iff hdouble hsingle]
        refine ⟨LineKind.bareKey?_eq_some_iff.mpr ⟨r ++ gap, rest, hrun, by simp, hcloses, by simp⟩,
          hopens, fun hc => ?_⟩
        obtain ⟨d, hd, hdwhite⟩ := hdash (by rw [hc]; rfl)
        obtain ⟨r', rfl⟩ := List.head?_eq_some_iff.mp hd
        exact ⟨d, rfl, hdwhite, hinside d (by simp)⟩
      · rw [LineKind.unquoteKey_bare hdouble hsingle hc, Text.trimEnd_append_of_white hwhite,
          ← Text.trimEnd_cons_of_not_white hc, Text.trimEnd_of_getLast? hends.2]
  | quotedKey double hlast =>
      have hself := hspells.encloses_self fun c hc => hinline c (by simp [hc])
      refine ⟨mark double :: (name ++ [mark double]), ?_, ?_⟩
      · rw [List.cons_append, List.cons_append, LineKind.keyToken?_cons, LineKind.keyFrom?_mark]
        exact LineKind.quotedKey?_eq_some_iff.mpr
          ⟨name, gap, rest, hself.mark_not_mem, hwhite, by simp, hcloses, by simp⟩
      · rw [LineKind.unquoteKey_quoted, Text.trimEnd_of_getLast? hlast]

/-- The patcher finds the line of a key that stands as it is. -/
theorem Stands.kind_ofLine (hcloses : closesKey rest = true) (h : Stands name .mapping token) :
    (OutlineLine.ofLine l).kind =
      .key name (Text.size (List.replicate indent ' ' ++ (token ++ gap))) := by
  obtain ⟨found, hread, hname⟩ := h.exists_keyToken? hspells hinline hgap hl hcloses
  have hsize : indent + Text.size (token ++ gap ++ [':']) - 1 =
      Text.size (List.replicate indent ' ' ++ (token ++ gap)) := by
    have hcolon : Text.size [':'] = 1 := rfl
    rw [Text.size_append, Text.size_append _ (token ++ gap), OutlineLine.size_replicate_space,
      hcolon]
    omega
  rw [ofLine_flag hspells hinline hl]
  refine LineKind.ofBody_eq_key_iff.mpr ⟨LineKind.isBlank_append_colon _ _, ?_, ?_, found, _,
    hread, hname.symm, hsize.symm⟩
  · rcases hspells.cases hinline with ⟨rfl, c, r, rfl, -, -, hsign, -⟩ | ⟨double, written, rfl, -⟩
    · simpa using hsign
    · cases double <;> simp [mark]
  · cases h with
    | bareKey hends hinside hdash =>
        obtain ⟨c, r, rfl, -⟩ := hspells.exists_of_self hinline
        refine (LineKind.dash?_eq_none_iff (by simp)).mpr fun d hhead hnext => ?_
        obtain ⟨e, he, hwhite⟩ := hdash (by simpa using hhead)
        obtain ⟨r', hr⟩ := List.head?_eq_some_iff.mp he
        obtain rfl : r = e :: r' := hr
        obtain rfl : e = d := by simpa using hnext
        exact hwhite
    | quotedKey double hlast =>
        refine (LineKind.dash?_eq_none_iff (by simp)).mpr fun d hhead _ => ?_
        cases double <;> cases hhead

omit hspells hinline hl in
theorem stands_of_keyToken?_bare {c : Char} {r found through : Text} (hdouble : c ≠ '"')
    (hsingle : c ≠ '\'')
    (hread : LineKind.keyToken? (c :: r ++ gap ++ ':' :: rest) = some (found, through))
    (hname : c :: r = LineKind.unquoteKey found) : Stands (c :: r) .mapping (c :: r) := by
  rw [List.cons_append, List.cons_append, LineKind.keyToken?_cons,
    LineKind.keyFrom?_bare_iff hdouble hsingle] at hread
  obtain ⟨hbare, hopens, hdash⟩ := hread
  obtain ⟨run, rest', hrun, hsplit, -, hfound⟩ := LineKind.bareKey?_eq_some_iff.mp hbare
  obtain ⟨rfl, -⟩ := Prod.mk.inj hfound
  have hc : isWhite c = false := by
    simp only [LineKind.opensNoBareKey, Bool.or_eq_false_iff] at hopens
    exact hopens.1
  rw [LineKind.unquoteKey_bare hdouble hsingle hc] at hname
  have hr : r = Text.trimEnd run := (List.cons.inj hname).2
  have hinside : ∀ d ∈ r, LineKind.isBareKeyChar d = true := fun d hd =>
    hrun d (Text.mem_of_mem_trimEnd (hr ▸ hd))
  refine .bareKey ⟨by simpa using hc, ?_⟩ hinside fun hhead => ?_
  · rw [hname, ← Text.trimEnd_cons_of_not_white hc]
    exact Text.getLast?_trimEnd _
  · -- neither white space nor a colon follows the dash
    obtain ⟨d, hd, hwhite, hchar⟩ := hdash (by simpa using hhead)
    cases r with
    | cons e r =>
        obtain rfl : e = d := by simpa using hd
        exact ⟨e, rfl, hwhite⟩
    | nil =>
        cases gap with
        | cons e gap =>
            obtain rfl : e = d := by simpa using hd
            rw [Scalar.isWhite_of_isBlank (hgap e (List.mem_cons_self ..))] at hwhite
            cases hwhite
        | nil =>
            obtain rfl : ':' = d := by simpa using hd
            cases hchar

omit hspells hinline hgap hl in
/-- A quoted key is read back as its name only when the name is what stands
between the quotes. -/
theorem stands_of_keyToken?_quoted {double : Bool} {written found through : Text}
    (hwritten : Encloses double written name)
    (hread : LineKind.keyToken? (mark double :: (written ++ [mark double]) ++ gap ++ ':' :: rest) =
      some (found, through))
    (hname : name = LineKind.unquoteKey found) :
    Stands name .mapping (mark double :: (written ++ [mark double])) := by
  rw [List.cons_append, List.cons_append, LineKind.keyToken?_cons, LineKind.keyFrom?_mark] at hread
  obtain ⟨inside, gap', rest', hinside, -, hsplit, -, hfound⟩ :=
    LineKind.quotedKey?_eq_some_iff.mp hread
  obtain ⟨rfl, -⟩ := Prod.mk.inj hfound
  rw [List.cons_append, LineKind.unquoteKey_quoted] at hname
  -- a quote inside would be a part of the name, too
  have hnone : mark double ∉ written := fun hmark =>
    hinside (Text.mem_of_mem_trimEnd (hname ▸ hwritten.mark_mem hmark))
  have hsame : written = inside := by
    have htake := congrArg (List.takeWhile (· != mark double)) hsplit
    rw [(LineKind.cut_at_mark hinside _).1, List.append_assoc, List.append_assoc,
      List.singleton_append, (LineKind.cut_at_mark hnone _).1] at htake
    exact htake
  subst hsame
  have hweight : Text.weight name = Text.weight written := by
    rw [hname, Text.weight_trimEnd]
  rw [hwritten.weight_le.2 hweight]
  refine .quotedKey double ?_
  rw [hname]
  exact Text.getLast?_trimEnd _

theorem stands_of_key? (h : (OutlineLine.ofLine l).key? = some name) :
    Stands name .mapping token := by
  obtain ⟨colon, hkind⟩ : ∃ colon, (OutlineLine.ofLine l).kind = .key name colon := by
    unfold OutlineLine.key? at h
    split at h
    · next key colon hkind => exact ⟨colon, by rw [hkind, Option.some.inj h]⟩
    · cases h
  rw [ofLine_flag hspells hinline hl] at hkind
  obtain ⟨-, -, -, found, through, hread, hname, -⟩ := LineKind.ofBody_eq_key_iff.mp hkind
  rcases hspells.cases hinline with ⟨rfl, c, r, rfl, hdouble, hsingle, -⟩ |
    ⟨double, written, rfl, hwritten⟩
  · exact stands_of_keyToken?_bare hgap hdouble hsingle hread hname
  · exact stands_of_keyToken?_quoted hwritten hread hname

end Flag

/-! ## What the patcher finds of an entry -/

namespace EntryLine

variable {kind : BodyKind} {indent : Nat} (x : EntryLine kind indent)

theorem token_subset : x.token ⊆ x.line.content := by
  intro c hc
  have hlayout := x.layout
  generalize x.line.content = content at hlayout
  cases hlayout with
  | item => simp [hc]
  | flag => simp [hc]

theorem isBreak_of_mem_token : ∀ c ∈ x.token, Source.isBreak c = false := by
  intro c hc
  have hends := x.inline c (x.token_subset hc)
  simp only [endsLine, Bool.or_eq_false_iff] at hends
  exact hends.1.1

theorem note?_of_stands (h : Stands x.name kind x.token) :
    note? kind indent (.ofLine x.line) = some (x.name, x.note) := by
  have hlayout := x.layout
  generalize hl : x.line.content = content at hlayout
  cases hlayout with
  | @item gap hne hgap =>
      have hread := h.splitComment_item x.spells x.isBreak_of_mem_token hgap x.trails x.isNote
      rw [note?, itemNote?_ofLine hne hgap hl, hread]
  | @flag gap value hgap hcloses hvalue hlast =>
      have hkind := h.kind_ofLine x.spells x.isBreak_of_mem_token hgap hl hcloses
      have hindent := congrArg OutlineLine.indent (ofLine_flag x.spells x.isBreak_of_mem_token hl)
      have hcontent : (OutlineLine.ofLine x.line).line.content =
          (List.replicate indent ' ' ++ (x.token ++ gap)) ++ ':' :: (value ++ x.tail) := by
        simp [OutlineLine.ofLine, hl]
      have hcut := KeyLine.ofLine?_eq_cut hcontent hkind
      have hkey : (OutlineLine.ofLine x.line).key? = some x.name := by
        rw [OutlineLine.key?, hkind]
      rw [note?, flagNote?, if_pos hindent, hkey, hcut]
      simp only [KeyLine.cut, hvalue.splitComment_append hlast x.isNote x.trails]

/-- Where the name of an entry is found, a note that is found with it is that of
the entry, and the name stands as it is; without a note none is found. -/
theorem of_note?_eq_some {comment : Text}
    (h : note? kind indent (.ofLine x.line) = some (x.name, comment)) :
    (x.note = [] → comment = []) ∧
      (x.note ≠ [] → comment = x.note → Stands x.name kind x.token) := by
  have hlayout := x.layout
  generalize hl : x.line.content = content at hlayout
  cases hlayout with
  | @item gap hne hgap =>
      rw [note?, itemNote?_ofLine hne hgap hl, Option.some.injEq] at h
      obtain ⟨hname, hcomment⟩ := Prod.mk.inj h
      refine ⟨fun hnone => ?_, fun hsome hsame => ?_⟩
      · rw [← hcomment]
        exact snd_splitComment_item_of_note_eq_nil x.spells x.isBreak_of_mem_token hgap x.trails
          x.isNote hnone hname
      · rw [hsame] at h
        exact stands_of_splitComment_item x.spells x.isBreak_of_mem_token hgap x.trails hsome h
  | @flag gap value hgap hcloses hvalue hlast =>
      have hkey : (OutlineLine.ofLine x.line).key? = some x.name := by
        rw [note?, flagNote?] at h
        split at h
        · split at h
          · next key k hkey _ =>
              obtain ⟨rfl, -⟩ := Prod.mk.inj (Option.some.inj h)
              exact hkey
          · cases h
        · cases h
      have hstands := stands_of_key? x.spells x.isBreak_of_mem_token hgap hl hkey
      rw [x.note?_of_stands hstands, Option.some.injEq] at h
      obtain ⟨-, hcomment⟩ := Prod.mk.inj h
      exact ⟨fun hnone => hcomment ▸ hnone, fun _ _ => hstands⟩

end EntryLine

end Patch

end Marginalia.Yaml

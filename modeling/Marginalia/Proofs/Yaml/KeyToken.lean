import Marginalia.Proofs.Text.Trim
import Marginalia.Yaml.Patch
import Mathlib.Data.List.TakeWhile

/-!
# Keys are recognised up to their colon

Whether a line opens with a key, which name the key has and where its colon
stands is decided by the text through the colon; of what follows the colon only
the first character counts.  So a line keeps its indentation, its key and its
colon when everything behind the colon changes.
-/

namespace Marginalia.Yaml

open CharClass

namespace LineKind

/-! ## The forms of a key -/

/-- A token with the gap behind it, at a colon that closes a key. -/
def atColon? (token gap : Text) : Text → Option (Text × Text)
  | ':' :: after => if closesKey after then some (token, token ++ gap ++ [':']) else none
  | _ => none

/-- A token whose written form was read, up to the colon behind it. -/
def upTo? (token rest : Text) : Option (Text × Text) :=
  atColon? token (rest.takeWhile isWhite) (rest.dropWhile isWhite)

def quotedKey? (mark : Char) (r : Text) : Option (Text × Text) :=
  match r.dropWhile (· != mark) with
  | _ :: rest => upTo? (mark :: r.takeWhile (· != mark) ++ [mark]) rest
  | [] => none

def isBareKeyChar (d : Char) : Bool :=
  d != ':' && d != '#'

def bareKey? (c : Char) (r : Text) : Option (Text × Text) :=
  let token := c :: Text.trimEnd (r.takeWhile isBareKeyChar)
  upTo? token ((c :: r).drop token.length)

def opensNoBareKey (c : Char) : Bool :=
  isWhite c || c == '#'

/-- The key token behind a dash, which is part of the key when a character of
the key follows. -/
def dashedKey? (r : Text) : Option (Text × Text) :=
  match r with
  | [] => none
  | d :: _ => if isWhite d || d == ':' || d == '#' then none else bareKey? '-' r

def keyFrom? (c : Char) : Text → Option (Text × Text) :=
  if c = '"' then quotedKey? '"'
  else if c = '\'' then quotedKey? '\''
  else if c = '-' then dashedKey?
  else if opensNoBareKey c then fun _ => none
  else bareKey? c

theorem keyToken?_cons (c : Char) (r : Text) : keyToken? (c :: r) = keyFrom? c r := by
  unfold keyFrom?
  split_ifs with hdouble hsingle hdash hnone
  · subst hdouble
    rfl
  · subst hsingle
    rfl
  · subst hdash
    rfl
  · rw [keyToken?]
    · rw [opensNoBareKey] at hnone
      simp only [hnone, if_true]
    · exact hdouble
    · exact hsingle
    · exact hdash
  · rw [keyToken?]
    · rw [opensNoBareKey] at hnone
      simp only [hnone]
      rfl
    · exact hdouble
    · exact hsingle
    · exact hdash

/-! ## What stands before the colon -/

/-- White space before a colon belongs to no token. -/
theorem upTo?_append {token gap tail : Text} (hgap : ∀ c ∈ gap, isWhite c = true)
    (htail : ∀ c ∈ tail.head?, isWhite c = false) :
    upTo? token (gap ++ tail) = atColon? token gap tail := by
  have hdrop : (gap ++ tail).dropWhile isWhite = tail := by
    rw [List.dropWhile_append_of_pos hgap]
    exact Text.trimStart_of_head? htail
  have htake : (gap ++ tail).takeWhile isWhite = gap := by
    have hnone : tail.takeWhile isWhite = [] := by
      cases tail with
      | nil => rfl
      | cons c tail => simp [htail c rfl]
    rw [List.takeWhile_append_of_pos hgap, hnone, List.append_nil]
  rw [upTo?, hdrop, htake]

theorem atColon?_eq_some_iff {token gap t : Text} {found : Text × Text} :
    atColon? token gap t = some found ↔
      ∃ rest, t = ':' :: rest ∧ closesKey rest = true ∧ found = (token, token ++ gap ++ [':']) := by
  constructor
  · intro h
    unfold atColon? at h
    split at h
    · next rest =>
        split at h
        · next hcloses => exact ⟨rest, rfl, hcloses, (Option.some.inj h).symm⟩
        · cases h
    · cases h
  · rintro ⟨rest, rfl, hcloses, rfl⟩
    rw [atColon?, if_pos hcloses]

theorem upTo?_eq_some_iff {token t : Text} {found : Text × Text} :
    upTo? token t = some found ↔
      ∃ gap rest, (∀ c ∈ gap, isWhite c = true) ∧ t = gap ++ ':' :: rest ∧
        closesKey rest = true ∧ found = (token, token ++ gap ++ [':']) := by
  constructor
  · intro h
    have hgap : ∀ c ∈ t.takeWhile isWhite, isWhite c = true := fun c hc => List.mem_takeWhile_imp hc
    have ht : t.takeWhile isWhite ++ t.dropWhile isWhite = t := List.takeWhile_append_dropWhile
    obtain ⟨rest, hdrop, hcloses, hfound⟩ := atColon?_eq_some_iff.mp h
    rw [hdrop] at ht
    exact ⟨_, rest, hgap, ht.symm, hcloses, hfound⟩
  · rintro ⟨gap, rest, hgap, rfl, hcloses, rfl⟩
    have hcolon : ∀ c ∈ (':' :: rest).head?, isWhite c = false := by
      intro c hc
      obtain rfl : ':' = c := by simpa using hc
      decide
    rw [upTo?_append hgap hcolon]
    exact atColon?_eq_some_iff.mpr ⟨rest, rfl, hcloses, rfl⟩

theorem cut_at_mark {mark : Char} {inside : Text} (hinside : mark ∉ inside) (rest : Text) :
    (inside ++ mark :: rest).takeWhile (· != mark) = inside ∧
      (inside ++ mark :: rest).dropWhile (· != mark) = mark :: rest := by
  have hne : ∀ c ∈ inside, (c != mark) = true := by
    intro c hc
    have hcm : c ≠ mark := fun h => hinside (by rwa [← h])
    simpa using hcm
  rw [List.takeWhile_append_of_pos hne, List.dropWhile_append_of_pos hne]
  simp

theorem quotedKey?_eq_some_iff {mark : Char} {r : Text} {found : Text × Text} :
    quotedKey? mark r = some found ↔
      ∃ inside gap rest, mark ∉ inside ∧ (∀ c ∈ gap, isWhite c = true) ∧
        r = inside ++ mark :: (gap ++ ':' :: rest) ∧ closesKey rest = true ∧
        found = (mark :: inside ++ [mark], mark :: inside ++ [mark] ++ gap ++ [':']) := by
  constructor
  · intro h
    have hr : r.takeWhile (· != mark) ++ r.dropWhile (· != mark) = r :=
      List.takeWhile_append_dropWhile
    unfold quotedKey? at h
    split at h
    · next c rest hdrop =>
        have hc : c = mark := by
          have hhead := List.head?_dropWhile_not (· != mark) r
          simpa [hdrop] using hhead
        obtain ⟨gap, after, hgap, hrest, hcloses, hfound⟩ := upTo?_eq_some_iff.mp h
        refine ⟨_, gap, after, ?_, hgap, ?_, hcloses, hfound⟩
        · intro hmem
          simpa using List.mem_takeWhile_imp hmem
        · rw [hdrop, hc, hrest] at hr
          exact hr.symm
    · cases h
  · rintro ⟨inside, gap, rest, hinside, hgap, rfl, hcloses, rfl⟩
    obtain ⟨htake, hdrop⟩ := cut_at_mark hinside (gap ++ ':' :: rest)
    rw [quotedKey?, hdrop, htake]
    exact upTo?_eq_some_iff.mpr ⟨gap, rest, hgap, rfl, hcloses, rfl⟩

theorem bareKey?_eq_some_iff {c : Char} {r : Text} {found : Text × Text} :
    bareKey? c r = some found ↔
      ∃ run rest, (∀ d ∈ run, isBareKeyChar d = true) ∧ r = run ++ ':' :: rest ∧
        closesKey rest = true ∧ found = (c :: Text.trimEnd run, c :: run ++ [':']) := by
  -- What stands behind the run is a colon, a number sign or nothing, so no
  -- white space.
  have hkey : ∀ {run tail : Text}, (∀ d ∈ run, isBareKeyChar d = true) →
      (∀ d ∈ tail.head?, isBareKeyChar d = false) →
      ∃ gap, c :: Text.trimEnd run ++ gap = c :: run ∧
        bareKey? c (run ++ tail) = atColon? (c :: Text.trimEnd run) gap tail := by
    intro run tail hrun htail
    have htake : (run ++ tail).takeWhile isBareKeyChar = run := by
      have hnone : tail.takeWhile isBareKeyChar = [] := by
        cases tail with
        | nil => rfl
        | cons d tail => simp [htail d rfl]
      rw [List.takeWhile_append_of_pos hrun, hnone, List.append_nil]
    have hwhite : ∀ d ∈ tail.head?, isWhite d = false := by
      intro d hd
      have hd := htail d hd
      simp only [isBareKeyChar, Bool.and_eq_false_iff, bne_eq_false_iff_eq] at hd
      rcases hd with rfl | rfl <;> decide
    have hdrop : (c :: (run ++ tail)).drop (c :: Text.trimEnd run).length =
        Text.endWhite run ++ tail := by
      rw [List.length_cons, List.drop_succ_cons, Text.drop_length_trimEnd]
    refine ⟨Text.endWhite run, by rw [List.cons_append, Text.trimEnd_append_endWhite], ?_⟩
    rw [bareKey?, htake, hdrop, upTo?_append (fun d => Text.isWhite_of_mem_endWhite) hwhite]
  constructor
  · intro h
    have hr : r.takeWhile isBareKeyChar ++ r.dropWhile isBareKeyChar = r :=
      List.takeWhile_append_dropWhile
    have hrun : ∀ d ∈ r.takeWhile isBareKeyChar, isBareKeyChar d = true :=
      fun d hd => List.mem_takeWhile_imp hd
    have htail : ∀ d ∈ (r.dropWhile isBareKeyChar).head?, isBareKeyChar d = false := by
      intro d hd
      have hhead := List.head?_dropWhile_not isBareKeyChar r
      rw [Option.mem_def.mp hd] at hhead
      simpa using hhead
    obtain ⟨gap, hgap, hread⟩ := hkey hrun htail
    rw [hr, h] at hread
    obtain ⟨rest, hrest, hcloses, hfound⟩ := atColon?_eq_some_iff.mp hread.symm
    rw [hrest] at hr
    rw [hgap] at hfound
    exact ⟨_, rest, hrun, hr.symm, hcloses, hfound⟩
  · rintro ⟨run, rest, hrun, rfl, hcloses, rfl⟩
    have htail : ∀ d ∈ (':' :: rest).head?, isBareKeyChar d = false := by
      intro d hd
      obtain rfl : ':' = d := by simpa using hd
      decide
    obtain ⟨gap, hgap, hread⟩ := hkey hrun htail
    rw [hread]
    exact atColon?_eq_some_iff.mpr ⟨rest, rfl, hcloses, by rw [hgap]⟩

/-! ## What the colon decides -/

/-- Whatever `read` finds behind the character `c` is decided by what stands
before a colon and by the character behind the colon. -/
def DecidedAtColon (c : Char) (read : Text → Option (Text × Text)) : Prop :=
  ∀ ⦃r token through⦄, read r = some (token, through) →
    ∃ front rest, r = front ++ ':' :: rest ∧ closesKey rest = true ∧
      through = c :: front ++ [':'] ∧
      ∀ rest', closesKey rest' = true → read (front ++ ':' :: rest') = some (token, through)

theorem decidedAtColon_quotedKey? (mark : Char) : DecidedAtColon mark (quotedKey? mark) := by
  intro r token through h
  obtain ⟨inside, gap, rest, hinside, hgap, rfl, hcloses, hfound⟩ := quotedKey?_eq_some_iff.mp h
  obtain ⟨rfl, rfl⟩ := Prod.mk.inj hfound
  refine ⟨inside ++ mark :: gap, rest, by simp, hcloses, by simp, ?_⟩
  intro rest' hcloses'
  exact quotedKey?_eq_some_iff.mpr ⟨inside, gap, rest', hinside, hgap, by simp, hcloses', rfl⟩

theorem decidedAtColon_bareKey? (c : Char) : DecidedAtColon c (bareKey? c) := by
  intro r token through h
  obtain ⟨run, rest, hrun, rfl, hcloses, hfound⟩ := bareKey?_eq_some_iff.mp h
  obtain ⟨rfl, rfl⟩ := Prod.mk.inj hfound
  refine ⟨run, rest, rfl, hcloses, rfl, ?_⟩
  intro rest' hcloses'
  exact bareKey?_eq_some_iff.mpr ⟨run, rest', hrun, rfl, hcloses', rfl⟩

theorem decidedAtColon_dashedKey? : DecidedAtColon '-' dashedKey? := by
  intro r token through h
  unfold dashedKey? at h
  split at h
  · cases h
  · next d ds =>
      split at h
      · cases h
      · next hd =>
          obtain ⟨front, rest, hr, hcloses, hthrough, hread⟩ := decidedAtColon_bareKey? '-' h
          -- A colon directly behind the dash was excluded.
          cases front with
          | nil =>
              obtain ⟨rfl, -⟩ := List.cons.inj hr
              simp at hd
          | cons e front =>
              obtain ⟨rfl, rfl⟩ := List.cons.inj hr
              refine ⟨d :: front, rest, rfl, hcloses, hthrough, ?_⟩
              intro rest' hcloses'
              rw [List.cons_append, dashedKey?, if_neg hd]
              exact hread rest' hcloses'

theorem decidedAtColon_keyFrom? (c : Char) : DecidedAtColon c (keyFrom? c) := by
  unfold keyFrom?
  split_ifs with hdouble hsingle hdash hnone
  · rw [hdouble]
    exact decidedAtColon_quotedKey? '"'
  · rw [hsingle]
    exact decidedAtColon_quotedKey? '\''
  · rw [hdash]
    exact decidedAtColon_dashedKey?
  · intro r token through h
    cases h
  · exact decidedAtColon_bareKey? c

/-- A key is recognised at the start of a text by what stands before its colon
and by the character behind the colon. -/
theorem exists_of_keyToken?_eq_some {t token through : Text}
    (h : keyToken? t = some (token, through)) :
    ∃ front rest, front ≠ [] ∧ t = front ++ ':' :: rest ∧ closesKey rest = true ∧
      through = front ++ [':'] ∧
      ∀ rest', closesKey rest' = true →
        keyToken? (front ++ ':' :: rest') = some (token, through) := by
  cases t with
  | nil => cases h
  | cons c r =>
      rw [keyToken?_cons] at h
      obtain ⟨front, rest, rfl, hcloses, hthrough, hread⟩ := decidedAtColon_keyFrom? c h
      refine ⟨c :: front, rest, by simp, rfl, hcloses, hthrough, ?_⟩
      intro rest' hcloses'
      rw [List.cons_append, keyToken?_cons]
      exact hread rest' hcloses'

end LineKind

end Marginalia.Yaml

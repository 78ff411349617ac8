import Marginalia.Text.CharClass

/-!
# Texts

A text is a list of characters.  Offsets into a text count UTF-8 bytes, so a
measure `size` stands beside the list, with the two halves of a text before and
after an offset.  The rest of the module holds the plain operations that the
documents are read with: trimming, removing an affix, cutting at a separator.
-/

namespace Marginalia

open CharClass

/-- A text is a list of characters. -/
abbrev Text := List Char

namespace Text

/-- The number of UTF-8 bytes of a text. -/
def size (t : Text) : Nat :=
  t.foldr (fun c n => c.utf8Size + n) 0

@[simp] theorem size_nil : size [] = 0 := rfl

@[simp] theorem size_cons (c : Char) (t : Text) : size (c :: t) = c.utf8Size + size t := rfl

@[simp] theorem size_append (s t : Text) : size (s ++ t) = size s + size t := by
  induction s with
  | nil => simp
  | cons c s ih =>
      rw [List.cons_append, size_cons, size_cons, ih, Nat.add_assoc]

/-- The characters that start before byte offset `n`. -/
def before : Nat → Text → Text
  | _, [] => []
  | 0, _ => []
  | n + 1, c :: t => c :: before (n + 1 - c.utf8Size) t

/-- The characters that start at byte offset `n` or later. -/
def after : Nat → Text → Text
  | _, [] => []
  | 0, t => t
  | n + 1, c :: t => after (n + 1 - c.utf8Size) t

/-- The characters between two byte offsets. -/
def slice (t : Text) (start stop : Nat) : Text :=
  before (stop - start) (after start t)

/-- Whether a byte offset lies in the text, its end included, and cuts no
character. -/
def isBoundary (t : Text) (n : Nat) : Bool :=
  size (before n t) == n

@[simp] theorem before_zero (t : Text) : before 0 t = [] := by
  cases t <;> rfl

@[simp] theorem after_zero (t : Text) : after 0 t = t := by
  cases t <;> rfl

@[simp] theorem before_nil (n : Nat) : before n [] = [] := by
  cases n <;> rfl

@[simp] theorem after_nil (n : Nat) : after n [] = [] := by
  cases n <;> rfl

/-- The two halves of a text at an offset make up the text. -/
theorem before_append_after (n : Nat) (t : Text) : before n t ++ after n t = t := by
  induction t generalizing n with
  | nil => simp
  | cons c t ih =>
    cases n with
    | zero => simp
    | succ n => simp [before, after, ih]

/-- Cutting at the size of a first part gives back that part. -/
theorem before_size_append (s t : Text) : before s.size (s ++ t) = s := by
  induction s with
  | nil => simp
  | cons c s ih =>
    have hc := c.utf8Size_pos
    obtain ⟨n, hn⟩ : ∃ n, c.utf8Size + size s = n + 1 := ⟨c.utf8Size + size s - 1, by omega⟩
    have hs : n + 1 - c.utf8Size = size s := by omega
    simp [hn, before, hs, ih]

/-- Cutting at the size of a first part leaves the second part. -/
theorem after_size_append (s t : Text) : after s.size (s ++ t) = t := by
  induction s with
  | nil => simp
  | cons c s ih =>
    have hc := c.utf8Size_pos
    obtain ⟨n, hn⟩ : ∃ n, c.utf8Size + size s = n + 1 := ⟨c.utf8Size + size s - 1, by omega⟩
    have hs : n + 1 - c.utf8Size = size s := by omega
    simp [hn, after, hs, ih]

/-- The text without the white space at its start. -/
def trimStart (t : Text) : Text :=
  t.dropWhile isWhite

/-- The longest end of the text that fits `p`, removed. -/
def dropEndWhile (p : Char → Bool) (t : Text) : Text :=
  (t.reverse.dropWhile p).reverse

/-- The text without the white space at its end. -/
def trimEnd (t : Text) : Text :=
  dropEndWhile isWhite t

/-- The text without the white space around it. -/
def trim (t : Text) : Text :=
  trimEnd (trimStart t)

/-- A text of white space only, the empty one included. -/
def isBlank (t : Text) : Bool :=
  t.all isWhite

/-- What follows `start` in a text that begins with it. -/
def dropPrefix? : (start t : Text) → Option Text
  | [], t => some t
  | _ :: _, [] => none
  | p :: start, c :: t => if p = c then dropPrefix? start t else none

/-- What precedes `tail` in a text that ends with it. -/
def dropSuffix? (tail t : Text) : Option Text :=
  (dropPrefix? tail.reverse t.reverse).map List.reverse

/-- The inside of a text that both begins and ends with `mark`, which are two
characters. -/
def unwrap? (mark : Char) (t : Text) : Option Text :=
  (dropPrefix? [mark] t).bind (dropSuffix? [mark])

/-- The pieces of a text between the occurrences of a separator; there is one
more piece than there are separators. -/
def splitAt (sep : Char) : Text → List Text
  | [] => [[]]
  | c :: t =>
    if c = sep then [] :: splitAt sep t
    else
      match splitAt sep t with
      | [] => [[c]]
      | piece :: pieces => (c :: piece) :: pieces

/-- The two sides of the first occurrence of a character. -/
def splitFirst? (sep : Char) : Text → Option (Text × Text)
  | [] => none
  | c :: t =>
    if c = sep then some ([], t)
    else (splitFirst? sep t).map fun (left, right) => (c :: left, right)

def joinWith (sep : Text) : List Text → Text
  | [] => []
  | [piece] => piece
  | piece :: pieces => piece ++ sep ++ joinWith sep pieces

def ofNat (n : Nat) : Text :=
  Nat.toDigits 10 n

/-- An integer in decimal, with a minus sign when it is negative. -/
def ofInt (i : Int) : Text :=
  if i < 0 then '-' :: ofNat i.natAbs else ofNat i.natAbs

/-- The number that ASCII digits of a base up to sixteen spell; none for an
empty text or one with another character in it. -/
def toNatBase? (base : Nat) (t : Text) : Option Nat :=
  if t.isEmpty then none
  else
    t.foldl (fun acc c => acc.bind fun n =>
      (hexValue? c).bind fun d => if d < base then some (n * base + d) else none) (some 0)

/-- The number that decimal digits spell. -/
def toNat? (t : Text) : Option Nat :=
  toNatBase? 10 t

/-- A number in lower-case hexadecimal with at least `width` digits. -/
def hex (width n : Nat) : Text :=
  let digits := Nat.toDigits 16 n
  List.replicate (width - digits.length) '0' ++ digits

end Text

end Marginalia

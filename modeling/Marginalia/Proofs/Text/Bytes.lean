import Marginalia.Proofs.Text.Smallest

/-!
# The smallest edit, sought on bytes

What two texts share can be counted on their UTF-8 bytes.  Different characters
may begin or end with the same bytes, so the count at the front is drawn back to
a cut of both texts, and then the count at the back, which is taken of what the
front leaves.  The edit between the two cuts is the one between what the texts
share as characters: bytes that are equal up to a cut of both texts are the
bytes of equal characters.
-/

namespace Marginalia

namespace Text

def bytes (t : Text) : List UInt8 :=
  t.flatMap String.utf8EncodeChar

theorem bytes_append (s t : Text) : bytes (s ++ t) = bytes s ++ bytes t :=
  List.flatMap_append

theorem length_bytes (t : Text) : t.bytes.length = t.size := by
  induction t with
  | nil => rfl
  | cons c t ih =>
      rw [← List.singleton_append, bytes_append, List.length_append, ih, size_append, bytes,
        List.flatMap_singleton, String.length_utf8EncodeChar]
      rfl

theorem bytes_inj {s t : Text} : s.bytes = t.bytes ↔ s = t := by
  refine ⟨fun h => ?_, fun h => by rw [h]⟩
  have hencoded : List.utf8Encode s = List.utf8Encode t := congrArg List.toByteArray h
  rw [← String.toByteArray_ofList, ← String.toByteArray_ofList, String.toByteArray_inj] at hencoded
  exact String.ofList_injective hencoded

theorem size_le_of_prefix {s t : Text} (h : s <+: t) : s.size ≤ t.size := by
  obtain ⟨r, rfl⟩ := h
  rw [size_append]
  exact Nat.le_add_right ..

theorem prefix_bytes {s t : Text} (h : s <+: t) : s.bytes <+: t.bytes := by
  obtain ⟨r, rfl⟩ := h
  rw [bytes_append]
  exact List.prefix_append ..

theorem suffix_bytes {s t : Text} (h : s <:+ t) : s.bytes <:+ t.bytes := by
  obtain ⟨r, rfl⟩ := h
  rw [bytes_append]
  exact List.suffix_append ..

/-- The first bytes of a text, up to a cut, are those of the characters before
the cut. -/
theorem eq_bytes_of_prefix {s t : Text} {p : List UInt8} (hs : s <+: t) (hp : p <+: t.bytes)
    (hsize : p.length = s.size) : p = s.bytes := by
  rw [← length_bytes] at hsize
  exact (List.prefix_of_prefix_length_le hp (prefix_bytes hs) hsize.le).eq_of_length hsize

/-- The last bytes of a text, from a cut on, are those of the characters behind
the cut. -/
theorem eq_bytes_of_suffix {s t : Text} {p : List UInt8} (hs : s <:+ t) (hp : p <:+ t.bytes)
    (hsize : p.length = s.size) : p = s.bytes := by
  rw [← length_bytes] at hsize
  exact (List.suffix_of_suffix_length_le hp (suffix_bytes hs) hsize.le).eq_of_length hsize

/-- First bytes that two texts share, up to a cut of both, are characters that
they share. -/
theorem exists_prefix_of_bytes {s t : Text} {p : List UInt8} (hs : p <+: s.bytes)
    (ht : p <+: t.bytes) (hcut : s.isBoundary p.length = true)
    (hcut' : t.isBoundary p.length = true) : ∃ r : Text, r.size = p.length ∧ r <+: s ∧ r <+: t := by
  have hfirst : ∀ u : Text, before p.length u <+: u := fun u =>
    ⟨_, before_append_after p.length u⟩
  have hbytes := eq_bytes_of_prefix (hfirst s) hs (size_before hcut).symm
  have hbytes' := eq_bytes_of_prefix (hfirst t) ht (size_before hcut').symm
  have hsame := bytes_inj.mp (hbytes.symm.trans hbytes')
  exact ⟨_, size_before hcut, hfirst s, hsame ▸ hfirst t⟩

theorem size_after {t : Text} {n : Nat} (h : t.isBoundary n = true) :
    (after n t).size = t.size - n := by
  have hsize := congrArg size (before_append_after n t)
  rw [size_append, size_before h] at hsize
  omega

/-- Last bytes that two texts share, from a cut of both on, are characters that
they share. -/
theorem exists_suffix_of_bytes {s t : Text} {p : List UInt8} (hs : p <:+ s.bytes)
    (ht : p <:+ t.bytes) (hcut : s.isBoundary (s.size - p.length) = true)
    (hcut' : t.isBoundary (t.size - p.length) = true) :
    ∃ r : Text, r.size = p.length ∧ r <:+ s ∧ r <:+ t := by
  have hlast : ∀ u : Text, after (u.size - p.length) u <:+ u := fun u =>
    ⟨_, before_append_after (u.size - p.length) u⟩
  have hsize : ∀ {u : Text}, p <:+ u.bytes → u.isBoundary (u.size - p.length) = true →
      (after (u.size - p.length) u).size = p.length := by
    intro u hp hu
    have hlength := hp.length_le
    rw [length_bytes] at hlength
    rw [size_after hu]
    omega
  have hbytes := eq_bytes_of_suffix (hlast s) hs (hsize hs hcut).symm
  have hbytes' := eq_bytes_of_suffix (hlast t) ht (hsize ht hcut').symm
  have hsame := bytes_inj.mp (hbytes.symm.trans hbytes')
  exact ⟨_, hsize hs hcut, hlast s, hsame ▸ hlast t⟩

end Text

namespace Edit

/-! ## The search -/

/-- How many elements two lists share at the front. -/
def sharedCount {α : Type} [DecidableEq α] : List α → List α → Nat
  | a :: xs, b :: ys => if a = b then sharedCount xs ys + 1 else 0
  | _, _ => 0

/-- The greatest number up to a bound that fits, or zero. -/
def drawBack (fits : Nat → Bool) : (bound : Nat) → Nat
  | 0 => 0
  | n + 1 => if fits (n + 1) then n + 1 else drawBack fits n

/-- The bytes that two texts share at the front, up to a cut of both. -/
def frontOnBytes (old new : Text) : Nat :=
  drawBack (fun n => old.isBoundary n && new.isBoundary n) (sharedCount old.bytes new.bytes)

/-- The bytes that two texts share at the back, `most` of them at most, from a
cut of both on. -/
def backOnBytes (old new : Text) (most : Nat) : Nat :=
  drawBack (fun n => old.isBoundary (old.size - n) && new.isBoundary (new.size - n))
    (sharedCount (old.bytes.reverse.take most) (new.bytes.reverse.take most))

/-- The edit that turns `old` into `new`, sought on their bytes; none when they
are equal. -/
def onBytes? (old new : Text) : Option Edit :=
  if old = new then none
  else
    let front := frontOnBytes old new
    let back := backOnBytes old new (min old.size new.size - front)
    some ⟨⟨front, old.size - back⟩, Text.slice new front (new.size - back)⟩

/-! ## What it finds -/

theorem exists_length_eq_sharedCount {α : Type} [DecidableEq α] (xs ys : List α) :
    ∃ p, p.length = sharedCount xs ys ∧ p <+: xs ∧ p <+: ys := by
  induction xs generalizing ys with
  | nil => exact ⟨[], rfl, List.nil_prefix, List.nil_prefix⟩
  | cons a xs ih =>
      cases ys with
      | nil => exact ⟨[], rfl, List.nil_prefix, List.nil_prefix⟩
      | cons b ys =>
          by_cases hab : a = b
          · subst hab
            obtain ⟨p, hlength, hxs, hys⟩ := ih ys
            refine ⟨a :: p, ?_, List.cons_prefix_cons.mpr ⟨rfl, hxs⟩,
              List.cons_prefix_cons.mpr ⟨rfl, hys⟩⟩
            rw [List.length_cons, hlength, sharedCount, if_pos rfl]
          · exact ⟨[], by rw [sharedCount, if_neg hab, List.length_nil], List.nil_prefix,
              List.nil_prefix⟩

theorem le_sharedCount_iff {α : Type} [DecidableEq α] {xs ys : List α} {n : Nat} :
    n ≤ sharedCount xs ys ↔ ∃ p, p.length = n ∧ p <+: xs ∧ p <+: ys := by
  constructor
  · intro hle
    obtain ⟨p, hlength, hxs, hys⟩ := exists_length_eq_sharedCount xs ys
    have htake := List.take_prefix n p
    exact ⟨p.take n, List.length_take_of_le (hlength ▸ hle), htake.trans hxs, htake.trans hys⟩
  · rintro ⟨p, rfl, ⟨xs, rfl⟩, ⟨ys, rfl⟩⟩
    induction p with
    | nil => exact Nat.zero_le _
    | cons a p ih => simpa [sharedCount] using ih

theorem drawBack_eq {fits : Nat → Bool} {n bound : Nat} (hle : n ≤ bound)
    (hfits : fits n = true) (hnone : ∀ m, n < m → m ≤ bound → fits m = false) :
    drawBack fits bound = n := by
  induction bound with
  | zero => exact (Nat.le_zero.mp hle).symm
  | succ bound ih =>
      rw [drawBack]
      rcases Nat.lt_or_ge bound n with hlast | hlast
      · obtain rfl : n = bound + 1 := by omega
        rw [if_pos hfits]
      · rw [hnone (bound + 1) (Nat.lt_succ_of_le hlast) (Nat.le_refl _), if_neg (by decide)]
        exact ih hlast fun m hm hmb => hnone m hm (Nat.le_succ_of_le hmb)

variable {old new : Text}

/-- At the front the search finds what the texts share as characters. -/
theorem frontOnBytes_eq (old new : Text) :
    frontOnBytes old new = (commonPrefix old new).size := by
  obtain ⟨hold, hnew⟩ := commonPrefix_prefix old new
  have hcut : ∀ {t : Text}, commonPrefix old new <+: t →
      t.isBoundary (commonPrefix old new).size = true := by
    rintro t ⟨rest, rfl⟩
    exact Text.isBoundary_size_append (commonPrefix old new) rest
  apply drawBack_eq
  · exact le_sharedCount_iff.mpr ⟨_, Text.length_bytes _, Text.prefix_bytes hold,
      Text.prefix_bytes hnew⟩
  · rw [hcut hold, hcut hnew]
    rfl
  · intro n hless hshared
    by_contra hfits
    rw [Bool.not_eq_false, Bool.and_eq_true_iff] at hfits
    obtain ⟨hcutOld, hcutNew⟩ := hfits
    obtain ⟨p, rfl, hpOld, hpNew⟩ := le_sharedCount_iff.mp hshared
    obtain ⟨r, hsize, hrOld, hrNew⟩ :=
      Text.exists_prefix_of_bytes hpOld hpNew hcutOld hcutNew
    have hlonger := Text.size_le_of_prefix (prefix_commonPrefix hrOld hrNew)
    omega

/-- Behind a common front the search finds what the rests share as
characters. -/
theorem backOnBytes_eq (front oldRest newRest : Text) :
    backOnBytes (front ++ oldRest) (front ++ newRest) (min oldRest.size newRest.size) =
      (commonSuffix oldRest newRest).size := by
  obtain ⟨hold, hnew⟩ := commonSuffix_suffix oldRest newRest
  have hleOld := Text.size_le_of_suffix hold
  have hleNew := Text.size_le_of_suffix hnew
  have hcut : ∀ {rest : Text}, commonSuffix oldRest newRest <:+ rest →
      (front ++ rest).isBoundary
        ((front ++ rest).size - (commonSuffix oldRest newRest).size) = true := by
    intro rest hrest
    obtain ⟨middle, hmiddle⟩ := hrest.trans (List.suffix_append front rest)
    rw [← hmiddle, Text.size_append, Nat.add_sub_cancel]
    exact Text.isBoundary_size_append middle _
  have hbytes : ∀ {rest : Text}, commonSuffix oldRest newRest <:+ rest →
      (commonSuffix oldRest newRest).bytes.reverse <+:
        (front ++ rest).bytes.reverse.take (min oldRest.size newRest.size) := by
    intro rest hrest
    rw [List.prefix_take_iff, List.reverse_prefix, List.length_reverse, Text.length_bytes]
    exact ⟨Text.suffix_bytes (hrest.trans (List.suffix_append front rest)),
      Nat.le_min.mpr ⟨hleOld, hleNew⟩⟩
  apply drawBack_eq
  · refine le_sharedCount_iff.mpr ⟨_, ?_, hbytes hold, hbytes hnew⟩
    rw [List.length_reverse, Text.length_bytes]
  · rw [hcut hold, hcut hnew]
    rfl
  · intro n hless hshared
    by_contra hfits
    rw [Bool.not_eq_false, Bool.and_eq_true_iff] at hfits
    obtain ⟨hcutOld, hcutNew⟩ := hfits
    obtain ⟨p, rfl, hpOld, hpNew⟩ := le_sharedCount_iff.mp hshared
    obtain ⟨hpOld, hmost⟩ := List.prefix_take_iff.mp hpOld
    obtain ⟨hpNew, -⟩ := List.prefix_take_iff.mp hpNew
    have hreverse : ∀ {t : Text}, p <+: t.bytes.reverse → p.reverse <:+ t.bytes := fun hp =>
      List.reverse_prefix.mp (by rwa [List.reverse_reverse])
    obtain ⟨r, hsize, hrOld, hrNew⟩ := Text.exists_suffix_of_bytes (hreverse hpOld)
      (hreverse hpNew) (by rwa [List.length_reverse]) (by rwa [List.length_reverse])
    rw [List.length_reverse] at hsize
    rw [← hsize] at hmost hless
    -- what they share is no larger than either rest, so it stands behind the
    -- common front
    obtain ⟨hmostOld, hmostNew⟩ := Nat.le_min.mp hmost
    have hendOld := Text.suffix_of_size_le hrOld (List.suffix_append front oldRest) hmostOld
    have hendNew := Text.suffix_of_size_le hrNew (List.suffix_append front newRest) hmostNew
    have hlonger := Text.size_le_of_suffix (suffix_commonSuffix hendOld hendNew)
    omega

/-- The search on bytes finds the edit between two texts. -/
theorem onBytes?_eq_between? (old new : Text) : onBytes? old new = between? old new := by
  by_cases hsame : old = new
  · rw [onBytes?, if_pos hsame, between?_eq_none_iff.mpr hsame]
  · obtain ⟨front, gone, made, back, rfl, rfl, hfront, hback, hbetween⟩ :=
      exists_between?_eq_some hsame
    have hmost : min (front ++ gone ++ back).size (front ++ made ++ back).size - front.size =
        min (gone ++ back).size (made ++ back).size := by
      simp only [Text.size_append]
      omega
    have hsought : backOnBytes (front ++ gone ++ back) (front ++ made ++ back)
        (min (gone ++ back).size (made ++ back).size) = back.size := by
      rw [List.append_assoc, List.append_assoc, backOnBytes_eq, hback]
    have hstop : (front ++ made ++ back).size - back.size = front.size + made.size := by
      rw [Text.size_append, Nat.add_sub_cancel, Text.size_append]
    rw [hbetween, onBytes?, if_neg hsame, frontOnBytes_eq, hfront]
    dsimp only
    rw [hmost, hsought, hstop, Text.slice_middle, Text.size_append, Nat.add_sub_cancel]

/-- The edit between two texts is the one that is found on their bytes.  There
is none exactly when the texts are equal; otherwise no edit that turns the one
into the other is smaller.  So a buffer that is given another text accepts the
edit, and then holds the other text. -/
theorem smallest_between? (old new : Text) :
    between? old new = onBytes? old new ∧
      (old = new ∧ between? old new = none ∨
        old ≠ new ∧ ∃ e, between? old new = some e ∧ e.Smallest old new) ∧
      ∀ b : Buffer, b.accepts (between? b.text new).toList = true ∧
        (b.setText new).2.text = new := by
  refine ⟨(onBytes?_eq_between? old new).symm, ?_, fun b => b.accepts_between? new⟩
  by_cases hsame : old = new
  · exact Or.inl ⟨hsame, between?_eq_none_iff.mpr hsame⟩
  · exact Or.inr ⟨hsame, exists_smallest_of_ne hsame⟩

/-- Two characters that begin with the same byte are replaced as a whole. -/
example : onBytes? "é".toList "è".toList = some ⟨⟨0, 2⟩, "è".toList⟩ := by
  decide +kernel

end Edit

end Marginalia

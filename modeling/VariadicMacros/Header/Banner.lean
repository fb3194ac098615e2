/-
**The banner of a header, its stamp, and the fingerprint that ignores it.**

The first line of a header says when it was generated.  Two headers are compared with this stamp
masked: the banner is looked for at the start of every line, and of the first line that begins
with it everything after the banner is replaced by a placeholder.  The fingerprint of a text is
the digest of the masked text.

Main definitions:

* `VariadicMacros.Header.bannerStart` — how the banner begins;
* `VariadicMacros.Header.splitBanner?` — the text up to the stamp, the stamp, and the rest;
* `VariadicMacros.Header.maskStamp` — the text with its stamp masked;
* `VariadicMacros.Header.fingerprint` — the digest of the masked text.

Main results:

* `VariadicMacros.Header.append_of_splitBanner?` — nothing is lost by the split;
* `VariadicMacros.Header.toList_maskStamp` — masking a text is masking its characters.
-/

import VariadicMacros.Digest.Sha256

set_option autoImplicit false

namespace VariadicMacros.Header

/-- How the line with the time of generation begins. -/
def bannerStart : String := "// This file was generated by vaforge on "

/-- What stands for the stamp in a masked text. -/
def stampPlaceholder : String := "<timestamp>"

/-- A text that is cut around the stamp of its banner. -/
structure BannerSplit where
  /-- The text up to the stamp, which ends with `bannerStart`. -/
  head : List Char
  /-- The rest of the line. -/
  stamp : List Char
  /-- The line feed and what follows it. -/
  rest : List Char
  deriving DecidableEq, Repr

/-- Looks for the banner in a text.  `atLineStart` says whether a line starts here, and `done`
holds the text before, the last character first. -/
def splitFrom (banner : List Char) (atLineStart : Bool) (done : List Char) :
    List Char → Option BannerSplit
  | [] => none
  | c :: cs =>
    if atLineStart && banner.isPrefixOf (c :: cs) then
      let after := (c :: cs).drop banner.length
      some ⟨done.reverse ++ banner, after.takeWhile (· != '\n'), after.dropWhile (· != '\n')⟩
    else splitFrom banner (c == '\n') (c :: done) cs

/-- Cuts a text around the stamp of its first banner. -/
def splitBanner? (cs : List Char) : Option BannerSplit :=
  splitFrom bannerStart.toList true [] cs

/-- The characters of a text with its stamp masked. -/
def maskChars (cs : List Char) : List Char :=
  match splitBanner? cs with
  | none => cs
  | some split => split.head ++ stampPlaceholder.toList ++ split.rest

/-- A text with its stamp masked.  A banner at the very start, where it is in every generated
header, is found without looking at the characters one by one. -/
def maskStamp (text : String) : String :=
  match text.dropPrefix? bannerStart with
  | some rest => bannerStart ++ stampPlaceholder ++ (rest.dropWhile (· != '\n')).copy
  | none => String.ofList (maskChars text.toList)

/-- The digest of a text with its stamp masked, in hexadecimal. -/
def fingerprint (text : String) : String := Sha256.hexDigest (maskStamp text).toUTF8

theorem append_of_splitFrom {banner : List Char} {atLineStart : Bool} {done cs : List Char}
    {split : BannerSplit} (h : splitFrom banner atLineStart done cs = some split) :
    split.head ++ split.stamp ++ split.rest = done.reverse ++ cs := by
  induction cs generalizing atLineStart done with
  | nil => simp [splitFrom] at h
  | cons c cs ih =>
      rw [splitFrom] at h
      split at h
      · next hp =>
        simp only [Bool.and_eq_true, List.isPrefixOf_iff_prefix] at hp
        obtain ⟨rest, hr⟩ := hp.2
        cases h
        simp only [List.append_assoc, List.takeWhile_append_dropWhile, ← hr, List.drop_left]
      · simpa using ih h

/-- Nothing is lost by the split. -/
theorem append_of_splitBanner? {cs : List Char} {split : BannerSplit}
    (h : splitBanner? cs = some split) : split.head ++ split.stamp ++ split.rest = cs := by
  simpa using append_of_splitFrom h

/-! ### Masking at the start of a text -/

theorem splitFrom_append {banner : List Char} (h : banner ≠ []) (cs : List Char) :
    splitFrom banner true [] (banner ++ cs) =
      some ⟨banner, cs.takeWhile (· != '\n'), cs.dropWhile (· != '\n')⟩ := by
  cases banner with
  | nil => exact absurd rfl h
  | cons b banner =>
      have hp : (b :: banner).isPrefixOf (b :: (banner ++ cs)) = true := by
        simp [List.isPrefixOf_iff_prefix]
      rw [List.cons_append, splitFrom, hp, ← List.cons_append, List.drop_left]
      simp

theorem dropWhile_append_of_all {p : Char → Bool} {l m : List Char} (hl : l.all p = true)
    (hm : m.head?.any p = false) : (l ++ m).dropWhile p = m := by
  induction l with
  | nil =>
      cases m with
      | nil => rfl
      | cons a m =>
          simp only [List.head?_cons, Option.any_some] at hm
          simp [hm]
  | cons a l ih =>
      simp only [List.all_cons, Bool.and_eq_true] at hl
      simp [hl.1, ih hl.2]

/-- Dropping characters off a slice is dropping them off its list. -/
theorem toList_dropWhile (p : Char → Bool) (s : String.Slice) :
    (s.dropWhile p).copy.toList = s.copy.toList.dropWhile p := by
  have happ : (s.takeWhile p).copy ++ (s.dropWhile p).copy = s.copy :=
    String.Slice.takeWhile_append_dropWhile
  have hall : (s.takeWhile p).all p = true := String.Slice.all_takeWhile
  have hhead : (s.dropWhile p).startsWith p = false := String.Slice.startsWith_dropWhile
  rw [String.Slice.all_bool_eq] at hall
  rw [String.Slice.startsWith_bool_eq_head?] at hhead
  rw [← happ, String.toList_append, dropWhile_append_of_all hall hhead]

/-- **Masking is masking of the characters.** -/
@[simp] theorem toList_maskStamp (text : String) :
    (maskStamp text).toList = maskChars text.toList := by
  unfold maskStamp
  split
  · next rest h =>
    have hb : bannerStart.toList ≠ [] := by decide
    rw [String.eq_append_of_dropPrefix?_string_eq_some h]
    simp [toList_dropWhile, maskChars, splitBanner?, splitFrom_append hb]
  · simp

end VariadicMacros.Header

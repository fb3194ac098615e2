/-
**Where the banner of a text is, and what masking its stamp leaves.**

A banner is looked for at the start of every line, and the first one that is found cuts the text in
three: what comes before the stamp, the stamp, and the rest from the end of that line on.  This cut
is described without the search that finds it.  A stamp stands on one line after its banner, so
that it can be exchanged without making a banner or moving the first one, whatever the stamps and
the rest of the text hold; and masking is such an exchange.

Main definitions:

* `VariadicMacros.Header.BannerAfter` — a banner stands at the start of a line of a text;
* `VariadicMacros.Header.HasBanner` — a text has a banner;
* `VariadicMacros.Header.BannerSplit.Cuts` — the three parts of a text around its first stamp.

Main results:

* `VariadicMacros.Header.splitBanner?_eq_some_iff` — the search finds the cut;
* `VariadicMacros.Header.BannerSplit.Cuts.restamp` — another stamp leaves the cut where it is;
* `VariadicMacros.Header.maskStamp_eq_maskStamp_iff` — **texts are masked alike exactly when they
  differ in nothing but their first stamp**, and a masked text is masked already.
-/

import Mathlib.Data.List.TakeWhile
import VariadicMacros.Header.Banner

set_option autoImplicit false

namespace VariadicMacros.Header

/-! ### Lines -/

/-- A line feed or nothing follows a line. -/
def startsBelow (rest : List Char) : Bool := rest.head?.all (· == '\n')

theorem startsBelow_dropWhile (cs : List Char) :
    startsBelow (cs.dropWhile (· != '\n')) = true := by
  have h := List.head?_dropWhile_not (· != '\n') cs
  unfold startsBelow
  cases hd : (cs.dropWhile (· != '\n')).head? with
  | none => rfl
  | some c =>
      rw [hd] at h
      simpa using h

theorem newline_notMem_takeWhile (cs : List Char) : '\n' ∉ cs.takeWhile (· != '\n') := by
  intro hmem
  simpa using List.mem_takeWhile_imp hmem

theorem dropWhile_line {line rest : List Char} (hline : '\n' ∉ line)
    (hrest : startsBelow rest = true) : (line ++ rest).dropWhile (· != '\n') = rest := by
  refine dropWhile_append_of_all ?_ ?_
  · rw [List.all_eq_true]
    intro c hc
    exact bne_iff_ne.2 fun heq => hline (heq ▸ hc)
  · cases rest with
    | nil => rfl
    | cons c rest => simpa [startsBelow] using hrest

/-! ### Banners -/

/-- The text `banner` stands in `cs` at the start of a line, after the characters `before`; whether
a line starts before them is told by `atLineStart`. -/
def StandsAfter (banner : List Char) (atLineStart : Bool) (before cs : List Char) : Prop :=
  before.getLast?.elim atLineStart (· == '\n') = true ∧ before ++ banner <+: cs

/-- A banner stands in a text after the characters `before`, which are none or end a line. -/
def BannerAfter (before cs : List Char) : Prop := StandsAfter bannerStart.toList true before cs

/-- A text has a banner: at its start, or right after a line feed. -/
def HasBanner (text : String) : Prop := ∃ before, BannerAfter before text.toList

/-- The parts of a text around its first banner's stamp: the text up to the end of the banner, the
stamp up to the end of the line, and the rest. -/
structure BannerSplit.Cuts (split : BannerSplit) (cs : List Char) : Prop where
  append_eq : split.head ++ split.stamp ++ split.rest = cs
  first : ∃ before, BannerAfter before cs ∧ split.head = before ++ bannerStart.toList ∧
    ∀ earlier, BannerAfter earlier cs → before.length ≤ earlier.length
  line : '\n' ∉ split.stamp
  below : startsBelow split.rest = true

theorem standsAfter_nil_iff {banner : List Char} {atLineStart : Bool} {cs : List Char} :
    StandsAfter banner atLineStart [] cs ↔ atLineStart = true ∧ banner <+: cs := by
  simp [StandsAfter]

/-- Past its first character a text is searched for a line that starts there. -/
theorem standsAfter_cons_iff {banner : List Char} {atLineStart : Bool} {c d : Char}
    {before cs : List Char} :
    StandsAfter banner atLineStart (d :: before) (c :: cs) ↔
      d = c ∧ StandsAfter banner (c == '\n') before cs := by
  rw [StandsAfter, StandsAfter, List.cons_append, List.cons_prefix_cons, List.getLast?_cons,
    and_left_comm]
  refine and_congr_right ?_
  rintro rfl
  cases before.getLast? <;> rfl

/-- The search ends with no result when there is no banner, and at the first one otherwise. -/
theorem splitFrom_cases {banner : List Char} (hbanner : banner ≠ []) (atLineStart : Bool)
    (done cs : List Char) :
    (splitFrom banner atLineStart done cs = none ∧
        ∀ before, ¬ StandsAfter banner atLineStart before cs) ∨
      ∃ before after : List Char, splitFrom banner atLineStart done cs = some
          ⟨done.reverse ++ before ++ banner, after.takeWhile (· != '\n'),
            after.dropWhile (· != '\n')⟩ ∧
        StandsAfter banner atLineStart before cs ∧
        ∀ earlier, StandsAfter banner atLineStart earlier cs → before.length ≤ earlier.length := by
  induction cs generalizing atLineStart done with
  | nil =>
      refine .inl ⟨rfl, fun before h => hbanner ?_⟩
      exact (List.append_eq_nil_iff.1 (List.prefix_nil.1 h.2)).2
  | cons c cs ih =>
      rw [splitFrom]
      split
      · next hhere =>
        simp only [Bool.and_eq_true, List.isPrefixOf_iff_prefix] at hhere
        obtain ⟨after, hafter⟩ := hhere.2
        refine .inr ⟨[], after, ?_, standsAfter_nil_iff.2 hhere, fun earlier _ => Nat.zero_le _⟩
        rw [← hafter, List.drop_left, List.append_nil]
      · next hhere =>
        simp only [Bool.and_eq_true, List.isPrefixOf_iff_prefix, ← standsAfter_nil_iff] at hhere
        rcases ih (c == '\n') (c :: done) with
          ⟨hnone, hno⟩ | ⟨before, after, hsome, hat, hfirst⟩
        · refine .inl ⟨hnone, fun before h => ?_⟩
          cases before with
          | nil => exact hhere h
          | cons d before => exact hno before (standsAfter_cons_iff.1 h).2
        · refine .inr ⟨c :: before, after, by simp [hsome], standsAfter_cons_iff.2 ⟨rfl, hat⟩,
            fun earlier h => ?_⟩
          cases earlier with
          | nil => exact absurd h hhere
          | cons d earlier => exact Nat.succ_le_succ (hfirst earlier (standsAfter_cons_iff.1 h).2)

theorem bannerStart_ne_nil : bannerStart.toList ≠ [] := by decide

/-! ### The cut at the first banner -/

namespace BannerSplit.Cuts

variable {split split' : BannerSplit} {cs : List Char}

/-- A text is cut in one way only. -/
theorem eq (h : split.Cuts cs) (h' : split'.Cuts cs) : split = split' := by
  obtain ⟨before, hat, hhead, hfirst⟩ := h.first
  obtain ⟨before', hat', hhead', hfirst'⟩ := h'.first
  have hbefore : before = before' := by
    have hprefix := (List.prefix_append before _).trans hat.2
    have hprefix' := (List.prefix_append before' _).trans hat'.2
    have hlength := Nat.le_antisymm (hfirst before' hat') (hfirst' before hat)
    exact (List.prefix_of_prefix_length_le hprefix hprefix' hlength.le).eq_of_length hlength
  have hheads : split.head = split'.head := by rw [hhead, hhead', hbefore]
  have htails : split.stamp ++ split.rest = split'.stamp ++ split'.rest := by
    have happ := h.append_eq.trans h'.append_eq.symm
    rw [List.append_assoc, List.append_assoc, hheads] at happ
    exact List.append_cancel_left happ
  have hrests : split.rest = split'.rest := by
    rw [← dropWhile_line h.line h.below, htails, dropWhile_line h'.line h'.below]
  have hstamps : split.stamp = split'.stamp := by
    rw [hrests] at htails
    exact List.append_cancel_right htails
  rw [BannerSplit.mk.injEq]
  exact ⟨hheads, hstamps, hrests⟩

/-- **Another stamp leaves the cut where it is.** -/
theorem restamp (h : split.Cuts cs) {stamp : List Char} (hstamp : '\n' ∉ stamp) :
    BannerSplit.Cuts { split with stamp := stamp } (split.head ++ stamp ++ split.rest) := by
  obtain ⟨before, hat, hhead, hfirst⟩ := h.first
  have hcs : split.head <+: cs := by
    rw [← h.append_eq, List.append_assoc]
    exact List.prefix_append _ _
  refine ⟨rfl, ⟨before, ⟨hat.1, ?_⟩, hhead, fun earlier hearlier => ?_⟩, hstamp, h.below⟩
  · rw [← hhead, List.append_assoc]
    exact List.prefix_append _ _
  · -- A banner further to the front ends before the stamp, where the two texts are the same.
    by_contra hlt
    refine hlt (hfirst earlier ⟨hearlier.1, ?_⟩)
    refine List.IsPrefix.trans ?_ hcs
    refine List.prefix_of_prefix_length_le hearlier.2
      (List.append_assoc split.head _ _ ▸ List.prefix_append _ _) ?_
    rw [hhead, List.length_append, List.length_append]
    omega

end BannerSplit.Cuts

/-- **The search finds the cut.** -/
theorem splitBanner?_eq_some_iff {cs : List Char} {split : BannerSplit} :
    splitBanner? cs = some split ↔ split.Cuts cs := by
  have hsearch : (splitBanner? cs = none ∧ ∀ before, ¬ BannerAfter before cs) ∨
      ∃ found, splitBanner? cs = some found ∧ found.Cuts cs := by
    rcases splitFrom_cases bannerStart_ne_nil true [] cs with
      hnone | ⟨before, after, hsome, hat, hfirst⟩
    · exact .inl hnone
    · exact .inr ⟨_, hsome, append_of_splitBanner? hsome, ⟨before, hat, by simp, hfirst⟩,
        newline_notMem_takeWhile after, startsBelow_dropWhile after⟩
  constructor
  · intro h
    rcases hsearch with ⟨hnone, -⟩ | ⟨found, hfound, hcuts⟩
    · rw [hnone] at h
      cases h
    · rw [hfound, Option.some_inj] at h
      exact h ▸ hcuts
  · intro h
    rcases hsearch with ⟨-, hno⟩ | ⟨found, hfound, hcuts⟩
    · obtain ⟨before, hat, -⟩ := h.first
      exact absurd hat (hno before)
    · rw [hfound, hcuts.eq h]

theorem splitBanner?_eq_none_iff {text : String} :
    splitBanner? text.toList = none ↔ ¬ HasBanner text := by
  rcases splitFrom_cases bannerStart_ne_nil true [] text.toList with
    ⟨hnone, hno⟩ | ⟨before, after, hsome, hat, -⟩
  · exact ⟨fun _ ⟨before, hat⟩ => hno before hat, fun _ => hnone⟩
  · constructor
    · intro h
      rw [splitBanner?, hsome] at h
      cases h
    · exact fun h => absurd ⟨before, hat⟩ h

/-- A text with a banner is cut in exactly one way, and only such a text is cut. -/
theorem hasBanner_iff {text : String} :
    HasBanner text ↔ ∃! split : BannerSplit, split.Cuts text.toList := by
  constructor
  · intro h
    cases hsplit : splitBanner? text.toList with
    | none => exact absurd h (splitBanner?_eq_none_iff.1 hsplit)
    | some split =>
        have hcuts := splitBanner?_eq_some_iff.1 hsplit
        exact ⟨split, hcuts, fun _ hother => hother.eq hcuts⟩
  · rintro ⟨split, hcuts, -⟩
    obtain ⟨before, hat, -⟩ := hcuts.first
    exact ⟨before, hat⟩

/-! ### Masking -/

theorem newline_notMem_stampPlaceholder : '\n' ∉ stampPlaceholder.toList := by decide

/-- Masking replaces the stamp. -/
theorem BannerSplit.Cuts.maskChars_eq {split : BannerSplit} {cs : List Char}
    (h : split.Cuts cs) :
    maskChars cs = split.head ++ stampPlaceholder.toList ++ split.rest := by
  rw [maskChars, splitBanner?_eq_some_iff.2 h]

/-- A masked text is cut where the text was. -/
theorem BannerSplit.Cuts.masked {split : BannerSplit} {cs : List Char} (h : split.Cuts cs) :
    BannerSplit.Cuts { split with stamp := stampPlaceholder.toList } (maskChars cs) :=
  h.maskChars_eq ▸ h.restamp newline_notMem_stampPlaceholder

theorem maskChars_of_not_hasBanner {text : String} (h : ¬ HasBanner text) :
    maskChars text.toList = text.toList := by
  rw [maskChars, splitBanner?_eq_none_iff.2 h]

/-- A text that is masked has a banner if it had one. -/
theorem hasBanner_maskStamp_iff {text : String} : HasBanner (maskStamp text) ↔ HasBanner text := by
  by_cases h : HasBanner text
  · obtain ⟨split, hcuts, -⟩ := hasBanner_iff.1 h
    obtain ⟨before, hat, -⟩ := hcuts.masked.first
    refine iff_of_true ⟨before, ?_⟩ h
    rwa [toList_maskStamp]
  · rw [show maskStamp text = text from
      String.toList_inj.1 ((toList_maskStamp text).trans (maskChars_of_not_hasBanner h))]

/-- **Texts are masked alike exactly when they differ in nothing but their first stamp.**  A text
with a banner, and no other one, is cut around the stamp of its first banner, in one way.  Two
texts are masked alike exactly when they are the same text without a banner or both are cut with
the same first and the same last part; and a masked text is masked already. -/
theorem maskStamp_eq_maskStamp_iff (s t : String) :
    (HasBanner t ↔ ∃! split : BannerSplit, split.Cuts t.toList) ∧
      (maskStamp s = maskStamp t ↔
        (s = t ∧ ¬ HasBanner s ∧ ¬ HasBanner t) ∨
          ∃ split split' : BannerSplit, split.Cuts s.toList ∧ split'.Cuts t.toList ∧
            split.head = split'.head ∧ split.rest = split'.rest) ∧
      maskStamp (maskStamp t) = maskStamp t := by
  refine ⟨hasBanner_iff, ⟨fun h => ?_, ?_⟩, ?_⟩
  · by_cases hs : HasBanner s
    · have ht : HasBanner t := by rwa [← hasBanner_maskStamp_iff, ← h, hasBanner_maskStamp_iff]
      obtain ⟨split, hcuts, -⟩ := hasBanner_iff.1 hs
      obtain ⟨split', hcuts', -⟩ := hasBanner_iff.1 ht
      -- The masked text is cut in one way only.
      have hmasked : maskChars s.toList = maskChars t.toList := by
        rw [← toList_maskStamp, h, toList_maskStamp]
      have heq := hcuts.masked.eq (hmasked ▸ hcuts'.masked)
      rw [BannerSplit.mk.injEq] at heq
      exact .inr ⟨split, split', hcuts, hcuts', heq.1, heq.2.2⟩
    · have ht : ¬ HasBanner t := by rwa [← hasBanner_maskStamp_iff, ← h, hasBanner_maskStamp_iff]
      refine .inl ⟨?_, hs, ht⟩
      rw [← String.toList_inj, ← maskChars_of_not_hasBanner hs, ← maskChars_of_not_hasBanner ht,
        ← toList_maskStamp, h, toList_maskStamp]
  · rintro (⟨rfl, -, -⟩ | ⟨split, split', hcuts, hcuts', hhead, hrest⟩)
    · rfl
    · rw [← String.toList_inj, toList_maskStamp, toList_maskStamp, hcuts.maskChars_eq,
        hcuts'.maskChars_eq, hhead, hrest]
  · rw [← String.toList_inj, toList_maskStamp]
    by_cases ht : HasBanner t
    · obtain ⟨split, hcuts, -⟩ := hasBanner_iff.1 ht
      rw [toList_maskStamp, hcuts.masked.maskChars_eq, hcuts.maskChars_eq]
    · exact maskChars_of_not_hasBanner (mt hasBanner_maskStamp_iff.1 ht)

end VariadicMacros.Header

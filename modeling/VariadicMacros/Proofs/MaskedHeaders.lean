/-
**What the fingerprint of a header tells.**

A header and an edited copy of it are compared with the stamps of their banners masked.  Masking
may neither hide an edit nor let the time of generation through: the texts that mask like a header
are the header with another stamp on its first line, wherever else these texts hold a banner.  And
from a masked header its options can be read off, since the bound, the guard and the stem stand in
its first lines, each with a character behind it that it cannot hold itself.  So fingerprints of
headers are equal exactly when the options are, as far as the digest has no collisions.

Main definitions:

* `VariadicMacros.Sha256.Collide` — two messages are a collision;
* `VariadicMacros.Header.fromFirstLineEnd` — a text from the end of its first line on;
* `VariadicMacros.Header.Restamped` — a text is another one with a new stamp;
* `VariadicMacros.Header.belowStamp` — what a header holds behind its first line.

Main results:

* `VariadicMacros.Header.maskChars_eq_iff` — which texts mask like one that starts with a banner;
* `VariadicMacros.Header.belowStamp_inj` — the options of a header can be read off it;
* `VariadicMacros.Header.fingerprint_eq_iff` — **fingerprints agree exactly up to the stamp**.
-/

import VariadicMacros.Proofs.BannerSplits
import VariadicMacros.Proofs.LoadedHeader

set_option autoImplicit false

namespace VariadicMacros

/-! ### Digests -/

/-- Two messages are a collision: they are different and have the same digest. -/
def Sha256.Collide (a b : ByteArray) : Prop :=
  a ≠ b ∧ Sha256.hexDigest a = Sha256.hexDigest b

namespace Header

theorem fingerprint_eq_iff_of_not_collide {s t : String}
    (h : ¬ Sha256.Collide (maskStamp s).toUTF8 (maskStamp t).toUTF8) :
    fingerprint s = fingerprint t ↔ maskStamp s = maskStamp t := by
  constructor
  · intro hd
    by_contra hne
    exact h ⟨fun heq => hne (String.toByteArray_inj.1 heq), hd⟩
  · intro hm
    rw [fingerprint, fingerprint, hm]

/-! ### Texts that start with a banner -/

/-- A banner at the start of a text is the one that it is cut at. -/
theorem cuts_banner {stamp rest : List Char} (hstamp : '\n' ∉ stamp)
    (hrest : startsBelow rest = true) :
    BannerSplit.Cuts ⟨bannerStart.toList, stamp, rest⟩ (bannerStart.toList ++ stamp ++ rest) := by
  refine ⟨rfl, ⟨[], ⟨rfl, ?_⟩, rfl, fun earlier _ => Nat.zero_le _⟩, hstamp, hrest⟩
  rw [List.nil_append, List.append_assoc]
  exact List.prefix_append _ _

/-- **The texts that mask like one that starts with a banner** differ from it in the stamp. -/
theorem maskChars_eq_iff {cs rest : List Char} (hrest : startsBelow rest = true) :
    maskChars cs = bannerStart.toList ++ stampPlaceholder.toList ++ rest ↔
      ∃ stamp, '\n' ∉ stamp ∧ cs = bannerStart.toList ++ stamp ++ rest := by
  constructor
  · intro h
    cases hsplit : splitBanner? cs with
    | none =>
        -- The text is its own masked text.
        refine ⟨stampPlaceholder.toList, newline_notMem_stampPlaceholder, ?_⟩
        simpa only [maskChars, hsplit] using h
    | some split =>
        have hcuts := splitBanner?_eq_some_iff.1 hsplit
        have heq := hcuts.masked.eq (h ▸ cuts_banner newline_notMem_stampPlaceholder hrest)
        rw [BannerSplit.mk.injEq] at heq
        exact ⟨split.stamp, hcuts.line, by rw [← heq.1, ← heq.2.2, hcuts.append_eq]⟩
  · rintro ⟨stamp, hstamp, rfl⟩
    exact (cuts_banner hstamp hrest).maskChars_eq

/-! ### Texts with another stamp -/

/-- A text from the end of its first line on. -/
def fromFirstLineEnd (text : String) : String :=
  String.ofList (text.toList.dropWhile (· != '\n'))

/-- The text `t` is a banner with some stamp, and then what follows the first line of `text`. -/
def Restamped (text t : String) : Prop :=
  ∃ stamp : String, '\n' ∉ stamp.toList ∧ t = bannerStart ++ stamp ++ fromFirstLineEnd text

/-- The texts that mask like one that starts with a banner are those with another stamp. -/
theorem maskStamp_eq_iff {line text : String} (hline : '\n' ∉ line.toList)
    (htext : text = bannerStart ++ line ++ fromFirstLineEnd text) (t : String) :
    maskStamp t = maskStamp text ↔ Restamped text t := by
  have hrest := startsBelow_dropWhile text.toList
  have hmask : maskChars text.toList = bannerStart.toList ++ stampPlaceholder.toList ++
      text.toList.dropWhile (· != '\n') := by
    conv => lhs; rw [htext]
    simpa [fromFirstLineEnd] using (cuts_banner hline hrest).maskChars_eq
  rw [← String.toList_inj, toList_maskStamp, toList_maskStamp, hmask, maskChars_eq_iff hrest]
  constructor
  · rintro ⟨stamp, hstamp, h⟩
    refine ⟨String.ofList stamp, by simpa using hstamp, ?_⟩
    rw [← String.toList_inj, h]
    simp [fromFirstLineEnd]
  · rintro ⟨stamp, hstamp, rfl⟩
    exact ⟨stamp.toList, hstamp, by simp [fromFirstLineEnd]⟩

/-! ### The text of a header -/

/-- What a line appends does not depend on the text before it. -/
theorem writeOnto_eq (out : String) (l : Line) : l.writeOnto out = out ++ l.writeOnto "" := by
  rw [← String.toList_inj, String.toList_append]
  cases l with
  | text content => simp [Line.writeOnto]
  | doc content =>
      simp only [Line.writeOnto]
      split <;> simp
  | define spacing d => simp [Line.toList_writeOnto_define]

theorem foldl_writeOnto_eq (out : String) (ls : List Line) :
    ls.foldl Line.writeOnto out = out ++ ls.foldl Line.writeOnto "" := by
  induction ls generalizing out with
  | nil => simp
  | cons l ls ih =>
      rw [List.foldl_cons, List.foldl_cons, ih, ih (l.writeOnto ""), writeOnto_eq out,
        String.append_assoc]

/-- The lines of a header behind its banner. -/
def linesBelow (o : Options) : List Line := (blocks o "").tail.flatMap Block.lines

/-- Only the banner depends on the stamp. -/
theorem flatMap_lines_blocks (o : Options) (stamp : String) :
    (blocks o stamp).flatMap Block.lines =
      .text (bannerStart ++ stamp ++ ".") :: linesBelow o := by
  simp only [linesBelow, blocks, opening, List.cons_append, List.tail_cons, List.flatMap_cons,
    Block.lines, List.nil_append]

/-- What a header holds behind its first line. -/
def belowStamp (o : Options) : String := "\n" ++ (linesBelow o).foldl Line.writeOnto ""

/-- A header is a banner, its stamp, and what does not depend on the stamp. -/
theorem write_eq_belowStamp {o : Options} (ho : o.check = .ok ()) (stamp : String) :
    write o stamp none = .ok (bannerStart ++ (stamp ++ ".") ++ belowStamp o) := by
  rw [write_eq_ok_of_check ho, flatMap_lines_blocks, List.foldl_cons, foldl_writeOnto_eq,
    Except.ok.injEq, ← String.toList_inj]
  simp [Line.writeOnto, belowStamp]

theorem fromFirstLineEnd_write {line : String} (hline : '\n' ∉ line.toList) (o : Options) :
    fromFirstLineEnd (bannerStart ++ line ++ belowStamp o) = belowStamp o := by
  have hbanner : '\n' ∉ bannerStart.toList := by decide
  have hfirst : '\n' ∉ (bannerStart ++ line).toList := by simp [hbanner, hline]
  have hrest : startsBelow (belowStamp o).toList = true := by simp [belowStamp, startsBelow]
  rw [fromFirstLineEnd, String.toList_append, dropWhile_line hfirst hrest, String.ofList_toList]

/-! ### Reading the options off a header -/

/-- Two lines in front of two texts are equal when the whole texts are. -/
theorem append_newline_inj {cs ds r s : List Char} (hcs : '\n' ∉ cs) (hds : '\n' ∉ ds)
    (h : cs ++ '\n' :: r = ds ++ '\n' :: s) : cs = ds ∧ r = s := by
  have hrest := congrArg (List.dropWhile (· != '\n')) h
  rw [dropWhile_line hcs rfl, dropWhile_line hds rfl, List.cons.injEq] at hrest
  obtain ⟨-, rfl⟩ := hrest
  exact ⟨List.append_cancel_right h, rfl⟩

theorem exists_toList_writeOnto {l : Line} (h : l.Reads) :
    ∃ cs, '\n' ∉ cs ∧ (l.writeOnto "").toList = cs ++ ['\n'] := by
  obtain ⟨cs, _, hread⟩ := h
  refine ⟨cs, fun hmem => ?_, by simpa using hread.written ""⟩
  exact absurd (List.all_eq_true.1 hread.stays _ hmem) (by decide)

/-- A text of lines that are read determines what each of them is written as. -/
theorem map_writeOnto_inj {ls ms : List Line} (hls : ∀ l ∈ ls, l.Reads) (hms : ∀ m ∈ ms, m.Reads)
    (h : ls.foldl Line.writeOnto "" = ms.foldl Line.writeOnto "") :
    ls.map (Line.writeOnto "") = ms.map (Line.writeOnto "") := by
  induction ls generalizing ms with
  | nil =>
      cases ms with
      | nil => rfl
      | cons m ms =>
          obtain ⟨ds, -, hm⟩ := exists_toList_writeOnto (hms m (by simp))
          rw [List.foldl_cons, foldl_writeOnto_eq (m.writeOnto ""), ← String.toList_inj,
            String.toList_append, hm] at h
          simp at h
  | cons l ls ih =>
      obtain ⟨cs, hcs, hl⟩ := exists_toList_writeOnto (hls l (by simp))
      rw [List.foldl_cons, foldl_writeOnto_eq, ← String.toList_inj, String.toList_append, hl] at h
      cases ms with
      | nil => simp at h
      | cons m ms =>
          obtain ⟨ds, hds, hm⟩ := exists_toList_writeOnto (hms m (by simp))
          rw [List.foldl_cons, foldl_writeOnto_eq (m.writeOnto ""), String.toList_append, hm,
            List.append_assoc, List.append_assoc] at h
          obtain ⟨rfl, hrest⟩ := append_newline_inj hcs hds h
          have hfirst : l.writeOnto "" = m.writeOnto "" := String.toList_inj.1 (hl.trans hm.symm)
          have hothers : ls.map (Line.writeOnto "") = ms.map (Line.writeOnto "") :=
            ih (fun l hl => hls l (List.mem_cons_of_mem _ hl))
              (fun m hm => hms m (List.mem_cons_of_mem _ hm)) (String.toList_inj.1 hrest)
          rw [List.map_cons, List.map_cons, hfirst, hothers]

theorem reads_linesBelow {o : Options} (ho : o.check = .ok ()) : ∀ l ∈ linesBelow o, l.Reads := by
  have hreads := reads_blocks ho ⟨1970, 1, 1, 0, 0, 0, 0⟩
  rw [flatMap_lines_blocks] at hreads
  exact fun l hl => hreads l (List.mem_cons_of_mem _ hl)

/-- **The options of a header can be read off it**: the bound off the line that introduces the
macros, the guard off the line that asks for it, and the stem off the example of a deferral. -/
theorem belowStamp_inj {o o' : Options} (ho : o.check = .ok ()) (ho' : o'.check = .ok ())
    (h : belowStamp o = belowStamp o') : o = o' := by
  have htexts : (linesBelow o).map (Line.writeOnto "") = (linesBelow o').map (Line.writeOnto "") :=
    map_writeOnto_inj (reads_linesBelow ho) (reads_linesBelow ho')
      ((String.append_right_inj "\n").1 h)
  have hlines : ∀ n : Nat, (linesBelow o)[n]?.map (Line.writeOnto "") =
      (linesBelow o')[n]?.map (Line.writeOnto "") := by
    intro n
    rw [← List.getElem?_map, ← List.getElem?_map, htexts]
  have hintroduction : ∀ o : Options, (linesBelow o)[4]? =
      some (.doc ("Variadic macro utilities for up to " ++ toString o.bound ++ " arguments.")) :=
    fun o => by simp [linesBelow, blocks, opening, docs, Block.lines]
  have hifndef : ∀ o : Options, (linesBelow o)[9]? = some (.text ("#ifndef " ++ o.guard)) :=
    fun o => by simp [linesBelow, blocks, opening, docs, Block.lines]
  have hdeferral : ∀ o : Options, (linesBelow o)[25]? =
      some (.doc ("`" ++ o.name "DEFER" ++ "(FOO)(x)` leaves `FOO (x)` behind; a later")) :=
    fun o => by simp [linesBelow, blocks, opening, docs, Block.lines, counting, deferral]
  have hbound := hlines 4
  have hguard := hlines 9
  have hstem := hlines 25
  rw [hintroduction, hintroduction] at hbound
  rw [hifndef, hifndef] at hguard
  rw [hdeferral, hdeferral] at hstem
  have hbound : o.bound = o'.bound := by
    apply Text.toString_inj
    simpa [Line.writeOnto] using hbound
  have hguard : o.guard = o'.guard := by simpa [Line.writeOnto] using hguard
  have hstem : o.stem = o'.stem := by simpa [Line.writeOnto, Options.name] using hstem
  rw [Options.mk.injEq]
  exact ⟨hbound, hstem, hguard⟩

/-! ### What is accepted -/

section Accepted

variable {o : Options} {stamp : String} (ho : o.check = .ok ()) (hstamp : '\n' ∉ stamp.toList)

include ho hstamp

/-- The texts that mask like a header are the header with another stamp. -/
theorem maskStamp_write_iff {text : String} (h : write o stamp none = .ok text) (t : String) :
    maskStamp t = maskStamp text ↔ Restamped text t := by
  have hline : '\n' ∉ (stamp ++ ".").toList := by simp [hstamp]
  rw [write_eq_belowStamp ho, Except.ok.injEq] at h
  refine maskStamp_eq_iff hline ?_ t
  rw [← h, fromFirstLineEnd_write hline]

/-- Headers mask alike exactly when they are generated for the same options. -/
theorem maskStamp_write_eq_iff {o' : Options} {stamp' text text' : String}
    (ho' : o'.check = .ok ()) (hstamp' : '\n' ∉ stamp'.toList)
    (h : write o stamp none = .ok text) (h' : write o' stamp' none = .ok text') :
    maskStamp text' = maskStamp text ↔ o' = o := by
  have hline : '\n' ∉ (stamp ++ ".").toList := by simp [hstamp]
  have hline' : '\n' ∉ (stamp' ++ ".").toList := by simp [hstamp']
  rw [maskStamp_write_iff ho hstamp h]
  rw [write_eq_belowStamp ho, Except.ok.injEq] at h
  rw [write_eq_belowStamp ho', Except.ok.injEq] at h'
  subst h h'
  rw [Restamped, fromFirstLineEnd_write hline]
  constructor
  · rintro ⟨line, hline₁, heq⟩
    have hbelow := congrArg fromFirstLineEnd heq
    rw [fromFirstLineEnd_write hline', fromFirstLineEnd_write hline₁] at hbelow
    exact belowStamp_inj ho' ho hbelow
  · rintro rfl
    exact ⟨stamp' ++ ".", hline', rfl⟩

end Accepted

/-- **Fingerprints agree exactly up to the stamp.**  A header is generated for all accepted
options and every stamp on one line.  A text is masked like it exactly when it is the header with
another stamp, and another header is exactly when its options are the same; and fingerprints agree
in the same cases, unless the masked texts are a collision of the digest. -/
theorem fingerprint_eq_iff {o : Options} {stamp : String} (ho : o.check = .ok ())
    (hstamp : '\n' ∉ stamp.toList) :
    ∃ text, write o stamp none = .ok text ∧
      (∀ t, (maskStamp t = maskStamp text ↔ Restamped text t) ∧
        (¬ Sha256.Collide (maskStamp t).toUTF8 (maskStamp text).toUTF8 →
          (fingerprint t = fingerprint text ↔ Restamped text t))) ∧
      ∀ o' stamp', o'.check = .ok () → '\n' ∉ stamp'.toList →
        ∃ text', write o' stamp' none = .ok text' ∧
          (maskStamp text' = maskStamp text ↔ o' = o) ∧
          (¬ Sha256.Collide (maskStamp text').toUTF8 (maskStamp text).toUTF8 →
            (fingerprint text' = fingerprint text ↔ o' = o)) := by
  have htext := write_eq_belowStamp ho stamp
  refine ⟨_, htext, fun t => ?_, fun o' stamp' ho' hstamp' => ?_⟩
  · have hmask := maskStamp_write_iff ho hstamp htext t
    exact ⟨hmask, fun hc => (fingerprint_eq_iff_of_not_collide hc).trans hmask⟩
  · have htext' := write_eq_belowStamp ho' stamp'
    have hmask := maskStamp_write_eq_iff ho hstamp ho' hstamp' htext htext'
    exact ⟨_, htext', hmask, fun hc => (fingerprint_eq_iff_of_not_collide hc).trans hmask⟩

/-- The smallest header keeps its fingerprint with another stamp, while a text without a banner and
the header of another bound are told apart from it. -/
theorem fingerprint_eq_iff_smallest :
    (⟨1, "", "G"⟩ : Options).check = .ok () ∧ '\n' ∉ "now".toList ∧
      ∃ text, write ⟨1, "", "G"⟩ "now" none = .ok text ∧
        fingerprint (bannerStart ++ "later" ++ fromFirstLineEnd text) = fingerprint text ∧
        maskStamp "" ≠ maskStamp text ∧
        ∃ text', write ⟨2, "", "G"⟩ "later" none = .ok text' ∧
          maskStamp text' ≠ maskStamp text := by
  have hcheck : (⟨1, "", "G"⟩ : Options).check = .ok () := by decide
  have hstamp : '\n' ∉ "now".toList := by decide
  obtain ⟨text, htext, hedited, hothers⟩ := fingerprint_eq_iff hcheck hstamp
  obtain ⟨text', htext', hmask, -⟩ := hothers ⟨2, "", "G"⟩ "later" (by decide) (by decide)
  have hlater : Restamped text (bannerStart ++ "later" ++ fromFirstLineEnd text) :=
    ⟨"later", by decide, rfl⟩
  refine ⟨hcheck, hstamp, text, htext, ?_, ?_, text', htext', ?_⟩
  · obtain ⟨hmasked, hfingerprint⟩ := hedited (bannerStart ++ "later" ++ fromFirstLineEnd text)
    refine (hfingerprint ?_).2 hlater
    rintro ⟨hne, -⟩
    exact hne (congrArg String.toUTF8 (hmasked.2 hlater))
  · intro h
    obtain ⟨stamp, -, heq⟩ := (hedited "").1.1 h
    simpa [bannerStart] using congrArg String.toList heq
  · exact fun h => absurd (hmask.1 h) (by decide)

end Header

end VariadicMacros

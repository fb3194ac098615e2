/-
**Replacing a file.**

A file is replaced by way of a file beside it, which is written and then moved to its place.  This
may fail at every step; in any case nothing is left of the file beside.  If it succeeds the path of
the file leads to the new content, and if it fails every file is as it was.

What is changed besides is on the way of the path, where folders may be made, or it bears the name
of the file beside and is lost.

Main definitions:

* `VariadicMacros.Directory.HasOnlyNullDevice` — the null device is the only one;
* `VariadicMacros.Directory.temporary?` — the place of the file beside a file that is replaced;
* `VariadicMacros.Directory.Replaces` — what the path and the folder have to fulfil.

Main results:

* `VariadicMacros.Directory.replace_cases` — how replacing a file ends;
* `VariadicMacros.Directory.locate_of_replace` — **a file that was replaced is found with its new
  content**;
* `VariadicMacros.Directory.getElem?_replace_of_off` — **what is off the way of its path stays**;
* `VariadicMacros.Directory.content?_replace` — **replacing a file touches no other one**.
-/

import VariadicMacros.Proofs.Directories

set_option autoImplicit false

namespace VariadicMacros

namespace Directory

/-! ### Devices -/

/-- The null device is the only place that loses what is written to it. -/
def HasOnlyNullDevice (d : Directory) : Prop :=
  ∀ path : String, d[path]? = some .sink → path = nullDevice.path

namespace HasOnlyNullDevice

variable {d e : Directory} (h : HasOnlyNullDevice d)

include h

theorem of_sameShape (hsame : SameShape d e) : HasOnlyNullDevice e := by
  intro path he
  rcases Entry.emptied_cases (hsame path) with ⟨-, hn⟩ | ⟨_, _, -, hf⟩ | ⟨-, hf⟩ | ⟨hs, -⟩
  · simp [hn] at he
  · simp [hf] at he
  · simp [hf] at he
  · exact h path hs

theorem put_file (p : Place) (content : String) : HasOnlyNullDevice (d.put p (.file content)) := by
  intro path he
  rw [getElem?_put] at he
  split at he
  · cases he
  · exact h path he

end HasOnlyNullDevice

theorem hasOnlyNullDevice_fresh : HasOnlyNullDevice fresh := by
  have hfolders : ∀ path : String,
      (usualFolders.foldl (fun d name => d.insert (Place.path ["", name]) .folder)
        (∅ : Directory))[path]? ≠ some .sink := by
    refine List.foldlRecOn (motive := fun d : Directory => ∀ path : String, d[path]? ≠ some .sink)
      usualFolders _ (by simp) fun d hd name _ path => ?_
    rw [Std.ExtTreeMap.getElem?_insert]
    split
    · simp
    · exact hd path
  intro path hpath
  rw [fresh, Std.ExtTreeMap.getElem?_insert] at hpath
  split at hpath
  · next heq => exact (Std.LawfulEqCmp.eq_of_compare heq).symm
  · exact absurd hpath (hfolders path)

/-! ### The file beside -/

namespace Host

variable (host : Host)

/-- The name of the file beside a file is longer than the name of the file. -/
theorem utf8ByteSize_temporaryName (name : String) :
    name.utf8ByteSize < (host.temporaryName name).utf8ByteSize := by
  have hdot : ".".utf8ByteSize = 1 := by decide
  simp only [temporaryName, String.utf8ByteSize_append, hdot]
  omega

theorem temporaryName_ne_empty (name : String) : host.temporaryName name ≠ "" := by
  simp [temporaryName]

theorem getLast?_temporaryName (name : String) :
    (host.temporaryName name).toList.getLast? = some 'p' := by
  have hend : ".tmp".toList.getLast? = some 'p' := by decide
  rw [temporaryName, String.toList_append, List.getLast?_append, hend, Option.some_or]

theorem temporaryName_ne_up (name : String) : host.temporaryName name ≠ ".." := by
  intro h
  have hlast := host.getLast?_temporaryName name
  rw [h] at hlast
  exact absurd hlast (by decide)

theorem isFixed_beside (folder : Place) (name : String) :
    (host.beside folder name).isFixed = false :=
  Place.isFixed_append_singleton folder (host.temporaryName_ne_empty name)
    (host.temporaryName_ne_up name)

theorem path_beside_ne (folder : Place) (name : String) :
    (host.beside folder name).path ≠ Place.path (folder ++ [name]) := by
  intro h
  have hsize := host.utf8ByteSize_temporaryName name
  rw [Place.path_append_inj h] at hsize
  omega

theorem path_beside_ne_nullDevice (folder : Place) (name : String) :
    (host.beside folder name).path ≠ nullDevice.path := by
  intro h
  have hlast : nullDevice.path.toList.getLast? = some 'p' := by
    rw [← h, beside, Place.path_append_singleton, String.toList_append, List.getLast?_append,
      host.getLast?_temporaryName, Option.some_or]
  exact absurd hlast (by decide)

end Host

/-- The place of the file beside the file that a path names, once its folder is made. -/
def temporary? (d : Directory) (host : Host) (path : String) : Option Place :=
  match (d.ensureFolderOf path).2, fileName? path with
  | .ok folder, some name => some (host.beside folder name)
  | _, _ => none

theorem SameShape.temporary?_eq {d e : Directory} (h : SameShape d e) (host : Host)
    (path : String) : d.temporary? host path = e.temporary? host path := by
  rw [temporary?, temporary?, h.ensureFolderOf]

/-- The file beside a file is not the null device. -/
theorem HasOnlyNullDevice.temporary_ne {d : Directory} (h : d.HasOnlyNullDevice) (host : Host)
    (path : String) (t : Place) (ht : d.temporary? host path = some t) :
    d[t.path]? ≠ some .sink := by
  intro hs
  unfold temporary? at ht
  split at ht
  · cases ht
    exact host.path_beside_ne_nullDevice _ _ (h _ hs)
  · cases ht

/-! ### How replacing a file ends -/

/-- A file of a name in a folder can be replaced: what the path and the folder have to fulfil. -/
structure Replaces (d : Directory) (host : Host) (path : String) (folder : Place) (name : String) :
    Prop where
  valid : isInvalid path = false
  fits : path.utf8ByteSize ≤ longestPath
  nameFits : name.utf8ByteSize ≤ longestName
  last : (components path).getLast? = some name
  notFolder : d[Place.path (folder ++ [name])]? ≠ some .folder
  besideNotFolder : d[(host.beside folder name).path]? ≠ some .folder

section Replace

variable {d : Directory} {host : Host} {path name : String} {folder : Place}

/-- The file beside is made, or there is a reason in the device, or in the path or a folder. -/
theorem create_cases (calledBeside : String)
    (hsink : d[(host.beside folder name).path]? ≠ some .sink) :
    (∃ fault, fault ≠ .refused ∧ d.create host calledBeside (host.beside folder name)
      (host.temporaryName name) = .error fault) ∨
      d.create host calledBeside (host.beside folder name) (host.temporaryName name) =
        .error .refused ∨
      d.create host calledBeside (host.beside folder name) (host.temporaryName name) =
          .ok (d.put (host.beside folder name) (.file "")) ∧
        name.utf8ByteSize ≤ longestName ∧
        d[(host.beside folder name).path]? ≠ some .folder := by
  have hsize := host.utf8ByteSize_temporaryName name
  unfold create
  split
  · exact .inl ⟨_, by simp, rfl⟩
  · split
    · exact .inl ⟨_, by simp, rfl⟩
    · split
      · exact .inl ⟨_, by simp, rfl⟩
      · split
        · exact .inr (.inl rfl)
        · rw [entry?_eq (host.isFixed_beside folder name)]
          split
          · exact .inl ⟨_, by simp, rfl⟩
          · next hs => exact absurd hs hsink
          · next hf => exact .inr (.inr ⟨rfl, by omega, by simp [hf]⟩)
          · next hn => exact .inr (.inr ⟨rfl, by omega, by simp [hn]⟩)

/-- A file with a content that is moved takes its new place, or nothing changes. -/
theorem move_cases {source : Place} {text : String}
    (hsource : d.entry? source = some (.file text)) :
    (∃ fault, d.move host source path folder name = .error fault) ∨
      d.move host source path folder name =
          .ok ((d.remove source).put (folder ++ [name]) (.file text)) ∧
        isInvalid path = false ∧ path.utf8ByteSize ≤ longestPath ∧
        (components path).getLast? = some name ∧ d.entry? (folder ++ [name]) ≠ some .folder := by
  unfold move
  split
  · exact .inl ⟨_, rfl⟩
  · next hinvalid =>
    split
    · exact .inl ⟨_, rfl⟩
    · next hlong =>
      split
      · exact .inl ⟨_, rfl⟩
      · next hlast =>
        split
        · exact .inl ⟨_, rfl⟩
        · split
          · exact .inl ⟨_, rfl⟩
          · next hfolder =>
            rw [hsource]
            exact .inr ⟨rfl, by simpa using hinvalid, Nat.not_lt.1 hlong, not_not.1 hlast, hfolder⟩

theorem remove_congr {d e : Directory} {p : Place}
    (h : ∀ path, p.path ≠ path → d[path]? = e[path]?) : d.remove p = e.remove p := by
  refine Std.ExtTreeMap.ext_getElem? fun path => ?_
  rw [getElem?_remove, getElem?_remove]
  split
  · rfl
  · next hpath => exact h path hpath

/-- A file is replaced in a folder, or at most the file beside it is removed. -/
theorem replaceIn_cases (hname : fileName? path = some name)
    (hsink : d[(host.beside folder name).path]? ≠ some .sink) (content : String) :
    (∃ fault, d.replaceIn host path folder name content = (d, .error fault)) ∨
      d[(host.beside folder name).path]? ≠ some .folder ∧
        ((∃ fault, d.replaceIn host path folder name content =
            (d.remove (host.beside folder name), .error fault)) ∨
          d.Replaces host path folder name ∧ d.replaceIn host path folder name content =
            ((d.remove (host.beside folder name)).put (folder ++ [name]) (.file content),
              .ok (folder ++ [name]))) := by
  obtain ⟨-, hne, hup⟩ := fileName?_eq_some hname
  have hfixed := host.isFixed_beside folder name
  have htarget := Place.isFixed_append_singleton folder hne hup
  have hother := host.path_beside_ne folder name
  unfold replaceIn
  simp only
  rcases create_cases (Place.path (folderNames path ++ [host.temporaryName name])) hsink with
    ⟨fault, hfault, hcreate⟩ | hcreate | ⟨hcreate, hshort, hnotFolder⟩
  · -- Only where the device refuses to open the file beside is it removed; `hfault` rules this out.
    exact .inl ⟨fault, by simp [hcreate]⟩
  · rw [hcreate]
    simp only [removeFile, entry?_eq hfixed]
    split
    · exact .inl ⟨_, rfl⟩
    · next hnotFolder => exact .inr ⟨hnotFolder, .inl ⟨_, rfl⟩⟩
  · rw [hcreate]
    refine .inr ⟨hnotFolder, ?_⟩
    simp only
    -- Once the file beside is made it is the only thing that is new, and it goes away in any case.
    have hnew : ∀ k, (host.beside folder name).path ≠ k →
        (d.put (host.beside folder name) (.file ""))[k]? = d[k]? := fun k hk => by
      rw [getElem?_put, if_neg hk]
    have hfilled : ∀ k, (host.beside folder name).path ≠ k →
        ((d.put (host.beside folder name) (.file "")).append
          (host.beside folder name) content)[k]? = d[k]? := fun k hk => by
      rw [getElem?_append_of_ne hk, hnew k hk]
    have hcontent : entry? ((d.put (host.beside folder name) (.file "")).append
        (host.beside folder name) content) (host.beside folder name) = some (.file content) := by
      simp [append, entry?_eq hfixed, getElem?_put]
    unfold fill
    by_cases hfill : host.refuses .fill
    · rw [if_pos hfill]
      exact .inl ⟨_, by rw [remove_congr hnew]⟩
    · rw [if_neg hfill]
      simp only
      rcases move_cases hcontent with ⟨fault, hmove⟩ | ⟨hmove, hvalid, hfits, hlast, hfolder⟩
      · rw [hmove]
        exact .inl ⟨fault, by rw [remove_congr hfilled]⟩
      · rw [hmove, remove_congr hfilled]
        rw [entry?_eq htarget, hfilled _ hother] at hfolder
        exact .inr ⟨⟨hvalid, hfits, hshort, hlast, hfolder, hnotFolder⟩, rfl⟩

/-- What replacing a file comes to: it fails and leaves what the folders being made left, but for
the file beside, or it puts the file at its place. -/
theorem replace_cases (hsink : ∀ t, d.temporary? host path = some t → d[t.path]? ≠ some .sink)
    (content : String) :
    (∃ e fault, AddsFolders d e ∧ d.replace host path content = (e, .error fault)) ∨
      ∃ e folder name, AddsFolders d e ∧ d.ensureFolderOf path = (e, .ok folder) ∧
        fileName? path = some name ∧ d.temporary? host path = some (host.beside folder name) ∧
        ((∃ fault, d.replace host path content =
            (e.remove (host.beside folder name), .error fault)) ∨
          e.Replaces host path folder name ∧ d.replace host path content =
            ((e.remove (host.beside folder name)).put (folder ++ [name]) (.file content),
              .ok (folder ++ [name]))) := by
  have hadds := addsFolders_ensureFolderOf d path
  unfold temporary? at hsink ⊢
  unfold replace
  rcases hfolder : d.ensureFolderOf path with ⟨e, fault | folder⟩
  · rw [hfolder] at hadds
    exact .inl ⟨e, fault, hadds, rfl⟩
  · rw [hfolder] at hadds hsink
    cases hname : fileName? path with
    | none => exact .inl ⟨e, _, hadds, rfl⟩
    | some name =>
        rw [hname] at hsink
        have hsink := hadds.getElem?_ne_sink (hsink _ rfl)
        rcases replaceIn_cases hname hsink content with ⟨fault, h⟩ | ⟨-, h⟩
        · exact .inl ⟨e, fault, hadds, h⟩
        · exact .inr ⟨e, folder, name, hadds, rfl, rfl, rfl, h⟩

/-! ### After a file was replaced -/

/-- What a file that was replaced comes from: the folder of its path is made, and the file beside it
goes to its place. -/
theorem exists_of_replace (hsink : ∀ t, d.temporary? host path = some t → d[t.path]? ≠ some .sink)
    {content : String} {e : Directory} {p : Place}
    (h : d.replace host path content = (e, .ok p)) :
    ∃ f folder name, AddsFolders d f ∧ d.ensureFolderOf path = (f, .ok folder) ∧
      fileName? path = some name ∧ d.temporary? host path = some (host.beside folder name) ∧
      f.Replaces host path folder name ∧ p = folder ++ [name] ∧
      e = (f.remove (host.beside folder name)).put (folder ++ [name]) (.file content) := by
  rcases replace_cases hsink content with
    ⟨_, _, _, heq⟩ | ⟨f, folder, name, hadds, hfolder, hname, ht, ⟨_, heq⟩ | ⟨hreplaces, heq⟩⟩
  · simp [h] at heq
  · simp [h] at heq
  · rw [h, Prod.mk.injEq, Except.ok.injEq] at heq
    exact ⟨f, folder, name, hadds, hfolder, hname, ht, hreplaces, heq.2, heq.1⟩

/-- The file beside is removed and the new one is put where no folders are. -/
theorem Replaces.keepsFolders (h : d.Replaces host path folder name) (content : String) :
    KeepsFolders d
      ((d.remove (host.beside folder name)).put (folder ++ [name]) (.file content)) := by
  refine (KeepsFolders.remove h.besideNotFolder).trans (KeepsFolders.put ?_ _)
  rw [getElem?_remove, if_neg (host.path_beside_ne folder name)]
  exact h.notFolder

/-- **A file that was replaced is found with its new content.** -/
theorem locate_of_replace
    (hsink : ∀ t, d.temporary? host path = some t → d[t.path]? ≠ some .sink) {content : String}
    {e : Directory} {p : Place} (h : d.replace host path content = (e, .ok p)) :
    e.locate path = .ok p ∧ e[p.path]? = some (.file content) ∧ p.isFixed = false ∧
      ∀ t, d.temporary? host path = some t → t.path ≠ p.path := by
  obtain ⟨f, folder, name, -, hfolder, hname, ht, hreplaces, rfl, rfl⟩ :=
    exists_of_replace hsink h
  obtain ⟨-, hne, hup⟩ := fileName?_eq_some hname
  refine ⟨(hreplaces.keepsFolders content).locate ?_, ?_,
    Place.isFixed_append_singleton folder hne hup, fun t htt => ?_⟩
  · exact locate_of_ensureFolderOf hfolder hname hreplaces.last hreplaces.valid hreplaces.fits
      hreplaces.nameFits
  · rw [getElem?_put, if_pos rfl]
  · rw [ht, Option.some.injEq] at htt
    rw [← htt]
    exact host.path_beside_ne folder name

/-- Replacing a file keeps the folders, and besides the file beside it changes only what is on the
way of its path. -/
theorem getElem?_replace_of_off
    (hsink : ∀ t, d.temporary? host path = some t → d[t.path]? ≠ some .sink) {content : String}
    {e : Directory} {p : Place} (h : d.replace host path content = (e, .ok p)) :
    KeepsFolders d e ∧ ∀ other : String, (∀ q ∈ way path, q.path ≠ other) →
      (∀ t, d.temporary? host path = some t → t.path ≠ other) → e[other]? = d[other]? := by
  obtain ⟨hlocate, -⟩ := locate_of_replace hsink h
  obtain ⟨f, folder, name, hadds, hfolder, -, ht, hreplaces, rfl, rfl⟩ :=
    exists_of_replace hsink h
  refine ⟨hadds.keepsFolders.trans (hreplaces.keepsFolders content), fun other hway hbeside => ?_⟩
  have hmade := getElem?_ensureFolderOf_of_off (d := d) hway
  rw [hfolder] at hmade
  rw [getElem?_put, if_neg (hway _ (mem_way_of_locate hlocate)), getElem?_remove,
    if_neg (hbeside _ ht), hmade]

/-- **Replacing a file touches no other one**, and nothing is left beside it. -/
theorem content?_replace (hfree : ∀ t, d.temporary? host path = some t → d.isFree t = true)
    {content : String} {e : Directory} {result : Except PathFault Place}
    (h : d.replace host path content = (e, result)) (other : String) :
    e.content? other = d.content? other ∨ ∃ p, result = .ok p ∧ p.path = other := by
  rcases replace_cases (fun t ht => getElem?_ne_sink_of_isFree (hfree t ht)) content with
    ⟨f, _, hadds, heq⟩ | ⟨f, folder, name, hadds, -, -, ht, heq⟩
  · rw [h, Prod.mk.injEq] at heq
    obtain ⟨rfl, -⟩ := heq
    exact .inl (hadds.content?_eq other)
  · have hremove : (f.remove (host.beside folder name)).content? other = d.content? other := by
      rw [← hadds.content?_eq other]
      by_cases hbeside : (host.beside folder name).path = other
      · rw [← hbeside, hadds.content?_eq, content?_of_isFree (hfree _ ht)]
        simp [content?, getElem?_remove]
      · exact content?_eq_of_getElem? (by rw [getElem?_remove, if_neg hbeside])
    rcases heq with ⟨_, heq⟩ | ⟨-, heq⟩
    · rw [h, Prod.mk.injEq] at heq
      obtain ⟨rfl, -⟩ := heq
      exact .inl hremove
    · rw [h, Prod.mk.injEq] at heq
      obtain ⟨rfl, rfl⟩ := heq
      by_cases htarget : Place.path (folder ++ [name]) = other
      · exact .inr ⟨_, rfl, htarget⟩
      · refine .inl (Eq.trans (content?_eq_of_getElem? ?_) hremove)
        rw [getElem?_put, if_neg htarget]

end Replace

end Directory

end VariadicMacros

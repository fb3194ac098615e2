/-
**What file operations do to a directory.**

A directory is changed by making folders, by opening a file for its end and adding to it, and by
replacing a file.  Each of these keeps the folders that are there, so that a path that could be
followed still leads to the same place.  Making folders touches only what is on the way of a path,
and no file there; adding to a file touches no other one.  Replacing a file, which is both of these
and more, has a module of its own.

Main definitions:

* `VariadicMacros.Directory.content?` — what the file at a place holds;
* `VariadicMacros.Directory.KeepsFolders`, `VariadicMacros.Directory.AddsFolders`,
  `VariadicMacros.Directory.SameShape` — what two directories have in common;
* `VariadicMacros.Directory.way` — the places that a path leads through.

Main results:

* `VariadicMacros.Directory.KeepsFolders.locate` — **a path that leads somewhere keeps leading
  there**;
* `VariadicMacros.Directory.follow_ensureFolders` — the folders that are made can be followed;
* `VariadicMacros.Directory.getElem?_ensureFolderOf_of_off` — what is off the way of a path stays
  when the folder of its file is made.
-/

import Mathlib.Data.List.TakeWhile
import VariadicMacros.CommandLine.Directory

set_option autoImplicit false

namespace VariadicMacros

/-! ### Places in a folder -/

namespace Place

theorem isFixed_append_singleton (p : Place) {name : String} (h : name ≠ "") (hup : name ≠ "..") :
    (p ++ [name]).isFixed = false := by
  have hroot : p ++ [name] ≠ root := by
    cases p with
    | nil => simpa [root] using h
    | cons c cs => simp [root]
  simp [isFixed, hroot, hup]

theorem path_append_singleton (p : Place) (name : String) :
    path (p ++ [name]) = (if p = [] then "" else path p ++ "/") ++ name := by
  unfold path
  split
  · next h => simp [h]
  · next h =>
    rw [String.intercalate_append_of_ne_nil h (by simp), String.intercalate_singleton]

/-- Different names in a folder have different paths. -/
theorem path_append_inj {p : Place} {a b : String} (h : path (p ++ [a]) = path (p ++ [b])) :
    a = b := by
  rwa [path_append_singleton, path_append_singleton, String.append_right_inj] at h

end Place

/-- An entry with nothing in it, if it is a file. -/
def Entry.emptied : Entry → Entry
  | .file _ => .file ""
  | .folder => .folder
  | .sink => .sink

/-- Two places hold the same kind of entry, or both hold none. -/
theorem Entry.emptied_cases {x y : Option Entry} (h : x.map emptied = y.map emptied) :
    x = none ∧ y = none ∨
      (∃ content content', x = some (.file content) ∧ y = some (.file content')) ∨
      x = some .folder ∧ y = some .folder ∨ x = some .sink ∧ y = some .sink := by
  rcases x with _ | _ | _ | _ <;> rcases y with _ | _ | _ | _ <;> simp_all [emptied]

namespace Directory

/-! ### Entries and contents -/

/-- What the file with a path holds, if there is a file. -/
def content? (d : Directory) (path : String) : Option String :=
  match d[path]? with
  | some (.file content) => some content
  | some .folder => none
  | some .sink => none
  | none => none

theorem content?_eq_of_getElem? {d e : Directory} {path : String} (h : d[path]? = e[path]?) :
    d.content? path = e.content? path := by rw [content?, content?, h]

theorem content?_of_getElem? {d : Directory} {path content : String}
    (h : d[path]? = some (.file content)) : d.content? path = some content := by
  rw [content?, h]

/-- Whether neither a file nor a device is at a place. -/
def isFree (d : Directory) (p : Place) : Bool :=
  match d[p.path]? with
  | some (.file _) => false
  | some .folder => true
  | some .sink => false
  | none => true

theorem content?_of_isFree {d : Directory} {p : Place} (h : d.isFree p = true) :
    d.content? p.path = none := by
  unfold isFree at h
  unfold content?
  split at h <;> simp_all

theorem getElem?_ne_sink_of_isFree {d : Directory} {p : Place} (h : d.isFree p = true) :
    d[p.path]? ≠ some .sink := by
  intro hs
  simp [isFree, hs] at h

theorem entry?_eq {p : Place} (h : p.isFixed = false) (d : Directory) :
    d.entry? p = d[p.path]? := by
  unfold entry?
  simp [h]

theorem entry?_of_isFixed {p : Place} (h : p.isFixed = true) (d : Directory) :
    d.entry? p = some .folder := by
  unfold entry?
  simp [h]

theorem isFixed_of_entry?_ne {d : Directory} {p : Place} (h : d.entry? p ≠ some .folder) :
    p.isFixed = false := by
  cases hp : p.isFixed with
  | false => rfl
  | true => exact absurd (entry?_of_isFixed hp d) h

theorem isFixed_of_entry?_eq_none {d : Directory} {p : Place} (h : d.entry? p = none) :
    p.isFixed = false := by
  refine isFixed_of_entry?_ne (d := d) ?_
  simp [h]

theorem getElem?_remove (d : Directory) (p : Place) (path : String) :
    (d.remove p)[path]? = if p.path = path then none else d[path]? := by
  simp [remove, Std.ExtTreeMap.getElem?_erase]

theorem entry?_start (d : Directory) (path : String) : d.entry? (start path) = some .folder := by
  unfold entry? start
  split <;> split <;> simp_all [Place.isFixed, Place.root]

/-! ### Folders that are kept -/

/-- Every folder of one directory is a folder of the other. -/
def KeepsFolders (d e : Directory) : Prop :=
  ∀ path : String, d[path]? = some .folder → e[path]? = some .folder

namespace KeepsFolders

theorem refl (d : Directory) : KeepsFolders d d := fun _ h => h

theorem trans {d e f : Directory} (h : KeepsFolders d e) (h' : KeepsFolders e f) :
    KeepsFolders d f := fun path hd => h' path (h path hd)

/-- Putting something where no folder is keeps the folders. -/
theorem put {d : Directory} {p : Place} (h : d[p.path]? ≠ some .folder) (entry : Entry) :
    KeepsFolders d (d.put p entry) := by
  intro path hd
  rw [getElem?_put, if_neg, hd]
  rintro rfl
  exact h hd

theorem remove {d : Directory} {p : Place} (h : d[p.path]? ≠ some .folder) :
    KeepsFolders d (d.remove p) := by
  intro path hd
  rw [getElem?_remove, if_neg, hd]
  rintro rfl
  exact h hd

variable {d e : Directory} (h : KeepsFolders d e)

include h

theorem entry? {p : Place} (hp : d.entry? p = some .folder) : e.entry? p = some .folder := by
  unfold Directory.entry? at hp ⊢
  split
  · rfl
  · next hfixed =>
    rw [if_neg hfixed] at hp
    exact h _ hp

theorem enter {p q : Place} {component : String} (hp : d.enter p component = .ok q) :
    e.enter p component = .ok q := by
  unfold Directory.enter at hp ⊢
  split at hp
  · cases hp
  · cases hp
  · cases hp
  · next hfolder =>
    rw [h.entry? hfolder]
    exact hp

theorem follow {p q : Place} {names : List String} (hp : d.follow p names = .ok q) :
    e.follow p names = .ok q := by
  induction names generalizing p with
  | nil => exact hp
  | cons component rest ih =>
      rw [Directory.follow] at hp
      rw [Directory.follow]
      split at hp
      · cases hp
      · next next hnext =>
        rw [h.enter hnext]
        exact ih hp

/-- A path that leads somewhere keeps leading there. -/
theorem locate {path : String} {p : Place} (hp : d.locate path = .ok p) :
    e.locate path = .ok p := by
  unfold Directory.locate at hp ⊢
  split
  · next hinvalid => simp [hinvalid] at hp
  · next hinvalid =>
    rw [if_neg hinvalid] at hp
    split
    · next hempty => simp [hempty] at hp
    · next hempty =>
      rw [if_neg hempty] at hp
      split
      · next hlong => simp [hlong] at hp
      · next hlong =>
        rw [if_neg hlong] at hp
        exact h.follow hp

end KeepsFolders

/-! ### Directories that differ in the contents of files only -/

/-- Two directories hold files, folders and devices at the same places. -/
def SameShape (d e : Directory) : Prop :=
  ∀ path : String, d[path]?.map Entry.emptied = e[path]?.map Entry.emptied

namespace SameShape

theorem refl (d : Directory) : SameShape d d := fun _ => rfl

theorem trans {d e f : Directory} (h : SameShape d e) (h' : SameShape e f) : SameShape d f :=
  fun path => (h path).trans (h' path)

theorem put {d e : Directory} (h : SameShape d e) (p : Place) (entry : Entry) :
    SameShape (d.put p entry) (e.put p entry) := by
  intro path
  rw [getElem?_put, getElem?_put]
  split
  · rfl
  · exact h path

variable {d e : Directory} (h : SameShape d e)

include h

theorem keepsFolders : KeepsFolders d e := by
  intro path hd
  rcases Entry.emptied_cases (h path) with ⟨hn, -⟩ | ⟨_, _, hf, -⟩ | ⟨-, he⟩ | ⟨hs, -⟩
  · simp [hn] at hd
  · simp [hf] at hd
  · exact he
  · simp [hs] at hd

theorem content?_eq_none {path : String} (hd : d.content? path = none) :
    e.content? path = none := by
  rcases Entry.emptied_cases (h path) with ⟨-, he⟩ | ⟨_, _, hf, -⟩ | ⟨-, he⟩ | ⟨-, he⟩
  · simp [content?, he]
  · simp [content?, hf] at hd
  · simp [content?, he]
  · simp [content?, he]

theorem isFree_eq (p : Place) : d.isFree p = e.isFree p := by
  unfold isFree
  rcases Entry.emptied_cases (h p.path) with
    ⟨hd, he⟩ | ⟨_, _, hd, he⟩ | ⟨hd, he⟩ | ⟨hd, he⟩ <;> rw [hd, he]

theorem entry? (p : Place) :
    (d.entry? p).map Entry.emptied = (e.entry? p).map Entry.emptied := by
  unfold Directory.entry?
  split
  · rfl
  · exact h _

theorem enter (p : Place) (component : String) : d.enter p component = e.enter p component := by
  unfold Directory.enter
  rcases Entry.emptied_cases (h.entry? p) with
    ⟨hd, he⟩ | ⟨_, _, hd, he⟩ | ⟨hd, he⟩ | ⟨hd, he⟩ <;> rw [hd, he]

/-- Making folders ends in the same way. -/
theorem ensureFolders (p : Place) (names : List String) :
    (d.ensureFolders p names).2 = (e.ensureFolders p names).2 := by
  induction names generalizing d e p with
  | nil => rfl
  | cons component rest ih =>
      rw [Directory.ensureFolders, Directory.ensureFolders, h.enter]
      cases e.enter p component with
      | error fault => rfl
      | ok next =>
          rcases Entry.emptied_cases (h.entry? next) with
            ⟨hd, he⟩ | ⟨_, _, hd, he⟩ | ⟨hd, he⟩ | ⟨hd, he⟩ <;> simp only [hd, he]
          · exact ih (h.put next .folder) next
          · exact ih h next

theorem ensureFolderOf (path : String) :
    (d.ensureFolderOf path).2 = (e.ensureFolderOf path).2 := by
  unfold Directory.ensureFolderOf
  simp only
  split
  · rfl
  · split
    · rfl
    · exact h.ensureFolders _ _

end SameShape

/-! ### The way of a path -/

end Directory

/-- The place that a name leads to from a place, whatever is there. -/
def Place.go (p : Place) (component : String) : Place :=
  if Directory.isIdle component then p
  else if component = ".." then p.parent
  else p ++ [component]

namespace Directory

/-- The places that a path leads through, from its start to its end. -/
def way (path : String) : List Place := (components path).scanl Place.go (start path)

/-- A name that can be followed leads where it would lead whatever is there. -/
theorem go_of_enter {d : Directory} {p q : Place} {component : String}
    (h : d.enter p component = .ok q) : p.go component = q := by
  have hidle : isIdle component = true ↔ component = "" ∨ component = "." := by simp [isIdle]
  unfold enter at h
  unfold Place.go
  split at h
  · cases h
  · cases h
  · cases h
  · simp only [hidle]
    split at h
    · next hc => rw [if_pos hc, Except.ok.inj h]
    · next hc =>
      rw [if_neg hc]
      split at h
      · next hup => rw [if_pos hup, Except.ok.inj h]
      · next hup =>
        rw [if_neg hup]
        split at h
        · cases h
        · exact Except.ok.inj h

theorem mem_scanl_self (p : Place) (names : List String) : p ∈ names.scanl Place.go p := by
  cases names <;> simp

/-- Names that can be followed lead to a place on their way. -/
theorem mem_scanl_of_follow {d : Directory} {p q : Place} {names : List String}
    (h : d.follow p names = .ok q) : q ∈ names.scanl Place.go p := by
  induction names generalizing p with
  | nil =>
      cases h
      exact mem_scanl_self _ []
  | cons component rest ih =>
      rw [follow] at h
      rw [List.scanl_cons]
      split at h
      · cases h
      · next next hnext =>
        rw [go_of_enter hnext]
        exact List.mem_cons_of_mem _ (ih h)

theorem mem_way_of_locate {d : Directory} {path : String} {p : Place}
    (h : d.locate path = .ok p) : p ∈ way path := by
  unfold locate at h
  split at h
  · cases h
  · split at h
    · cases h
    · split at h
      · cases h
      · exact mem_scanl_of_follow h

/-! ### Making folders -/

/-- The other directory has some more folders, at places where nothing was. -/
def AddsFolders (d e : Directory) : Prop :=
  ∀ path : String, e[path]? = d[path]? ∨ d[path]? = none ∧ e[path]? = some .folder

namespace AddsFolders

theorem refl (d : Directory) : AddsFolders d d := fun _ => .inl rfl

theorem put {d : Directory} {p : Place} (h : d.entry? p = none) :
    AddsFolders d (d.put p .folder) := by
  intro path
  have hp : d[p.path]? = none := by
    rwa [entry?_eq (isFixed_of_entry?_eq_none h)] at h
  rw [getElem?_put]
  split
  · next heq => exact .inr ⟨heq ▸ hp, rfl⟩
  · exact .inl rfl

variable {d e f : Directory}

theorem trans (h : AddsFolders d e) (h' : AddsFolders e f) : AddsFolders d f := by
  intro path
  rcases h' path with hf | ⟨he, hf⟩
  · rw [hf]
    exact h path
  · rcases h path with hd | ⟨-, hd⟩
    · exact .inr ⟨hd ▸ he, hf⟩
    · rw [he] at hd
      cases hd

theorem keepsFolders (h : AddsFolders d e) : KeepsFolders d e := by
  intro path hd
  rcases h path with he | ⟨hn, -⟩
  · rw [he, hd]
  · rw [hd] at hn
    cases hn

theorem getElem?_ne_sink (h : AddsFolders d e) {path : String} (hd : d[path]? ≠ some .sink) :
    e[path]? ≠ some .sink := by
  rcases h path with he | ⟨-, he⟩
  · rwa [he]
  · simp [he]

theorem content?_eq (h : AddsFolders d e) (path : String) : e.content? path = d.content? path := by
  rcases h path with he | ⟨hd, he⟩
  · exact content?_eq_of_getElem? he
  · rw [content?, content?, hd, he]

end AddsFolders

theorem addsFolders_ensureFolders (d : Directory) (p : Place) (names : List String) :
    AddsFolders d (d.ensureFolders p names).1 := by
  induction names generalizing d p with
  | nil => exact .refl d
  | cons component rest ih =>
      rw [ensureFolders]
      split
      · exact .refl d
      · next next _ =>
        split
        · exact ih d next
        · exact .refl d
        · exact .refl d
        · next hn => exact (AddsFolders.put hn).trans (ih _ next)

theorem addsFolders_ensureFolderOf (d : Directory) (path : String) :
    AddsFolders d (d.ensureFolderOf path).1 := by
  unfold ensureFolderOf
  simp only
  split
  · exact .refl d
  · split
    · exact .refl d
    · exact addsFolders_ensureFolders d _ _

/-- Folders are made on the way of the names only. -/
theorem getElem?_ensureFolders_of_off {d : Directory} {p : Place} {names : List String}
    {other : String} (h : ∀ q ∈ names.scanl Place.go p, q.path ≠ other) :
    (d.ensureFolders p names).1[other]? = d[other]? := by
  induction names generalizing d p with
  | nil => rfl
  | cons component rest ih =>
      rw [List.scanl_cons, List.forall_mem_cons] at h
      rw [ensureFolders]
      split
      · rfl
      · next next hnext =>
        rw [go_of_enter hnext] at h
        split
        · exact ih h.2
        · rfl
        · rfl
        · rw [ih h.2, getElem?_put, if_neg (h.2 next (mem_scanl_self next rest))]

/-- The folders that are made can be followed, and the last of them is a folder. -/
theorem follow_ensureFolders {d e : Directory} {p q : Place} {names : List String}
    (h : d.ensureFolders p names = (e, .ok q)) (hp : d.entry? p = some .folder) :
    e.follow p names = .ok q ∧ e.entry? q = some .folder := by
  have hkeeps : ∀ {d : Directory} {p : Place} {names : List String},
      d.ensureFolders p names = (e, .ok q) → KeepsFolders d e := by
    intro d p names h
    have hadds := addsFolders_ensureFolders d p names
    rw [h] at hadds
    exact hadds.keepsFolders
  induction names generalizing d p with
  | nil =>
      cases h
      exact ⟨rfl, hp⟩
  | cons component rest ih =>
      rw [follow]
      have hkeep := hkeeps h
      rw [ensureFolders] at h
      split at h
      · cases h
      · next next hnext =>
        rw [hkeep.enter hnext]
        split at h
        · next hfolder => exact ih h hfolder
        · cases h
        · cases h
        · next hn =>
          refine ih h ?_
          rw [entry?_eq (isFixed_of_entry?_eq_none hn), getElem?_put, if_pos rfl]

/-! ### Paths of files -/

theorem follow_append (d : Directory) (p : Place) (names others : List String) :
    d.follow p (names ++ others) = (d.follow p names).bind fun q => d.follow q others := by
  induction names generalizing p with
  | nil => rfl
  | cons component rest ih =>
      rw [List.cons_append, follow, follow]
      cases d.enter p component with
      | error fault => rfl
      | ok next => exact ih next

/-- Names that lead nowhere stay in a folder. -/
theorem follow_idle {d : Directory} {p : Place} (hp : d.entry? p = some .folder)
    {names : List String} (h : ∀ c ∈ names, isIdle c = true) : d.follow p names = .ok p := by
  induction names with
  | nil => rfl
  | cons component rest ih =>
      have hidle : component = "" ∨ component = "." := by simpa [isIdle] using h component (by simp)
      have henter : d.enter p component = .ok p := by
        rw [enter, hp]
        exact if_pos hidle
      rw [follow, henter]
      exact ih fun c hc => h c (List.mem_cons_of_mem _ hc)

/-- Of the names of a path only those are left out that lead nowhere. -/
theorem exists_append_withoutIdleEnd (names : List String) :
    ∃ idle, (∀ c ∈ idle, isIdle c = true) ∧ names = withoutIdleEnd names ++ idle := by
  cases names with
  | nil => exact ⟨[], by simp, rfl⟩
  | cons first rest =>
      refine ⟨(rest.reverse.takeWhile isIdle).reverse, fun c hc => ?_, ?_⟩
      · exact List.mem_takeWhile_imp (List.mem_reverse.1 hc)
      · rw [withoutIdleEnd, List.cons_append, ← List.reverse_append,
          List.takeWhile_append_dropWhile, List.reverse_reverse]

theorem isPrefix_folderNames (path : String) : folderNames path <+: components path := by
  have hfront : ∀ names : List String, withoutIdleEnd names <+: names := fun names => by
    obtain ⟨idle, -, heq⟩ := exists_append_withoutIdleEnd names
    exact ⟨idle, heq.symm⟩
  exact (hfront _).trans ((List.dropLast_prefix _).trans (hfront _))

/-- The folder of a file is made on the way of its path only. -/
theorem getElem?_ensureFolderOf_of_off {d : Directory} {path other : String}
    (h : ∀ q ∈ way path, q.path ≠ other) : (d.ensureFolderOf path).1[other]? = d[other]? := by
  unfold ensureFolderOf
  simp only
  split
  · rfl
  · split
    · rfl
    · refine getElem?_ensureFolders_of_off fun q hq => h q ?_
      obtain ⟨rest, hrest⟩ := isPrefix_folderNames path
      rw [way, ← hrest, List.scanl_append]
      exact List.mem_append_left _ hq

theorem withoutIdleEnd_append {names : List String} {last : String} (h : isIdle last = false) :
    withoutIdleEnd (names ++ [last]) = names ++ [last] := by
  cases names with
  | nil => rfl
  | cons first rest => simp [withoutIdleEnd, h]

theorem fileName?_eq_some {path name : String} (h : fileName? path = some name) :
    isIdle name = false ∧ name ≠ "" ∧ name ≠ ".." := by
  unfold fileName? at h
  split at h
  · cases h
  · next last _ =>
    split at h
    · cases h
    · next hlast =>
      cases h
      simp only [Bool.or_eq_true, beq_iff_eq, not_or, Bool.not_eq_true] at hlast
      refine ⟨hlast.1, ?_, hlast.2⟩
      rintro rfl
      exact absurd hlast.1 (by decide)

/-- A path whose folder was made leads to the file of its name in that folder. -/
theorem locate_of_ensureFolderOf {d e : Directory} {path name : String} {folder : Place}
    (h : d.ensureFolderOf path = (e, .ok folder)) (hname : fileName? path = some name)
    (hlast : (components path).getLast? = some name) (hinvalid : isInvalid path = false)
    (hlong : path.utf8ByteSize ≤ longestPath) (hshort : name.utf8ByteSize ≤ longestName) :
    e.locate path = .ok (folder ++ [name]) := by
  obtain ⟨hidle, hne, hup⟩ := fileName?_eq_some hname
  obtain ⟨front, hfront⟩ := List.getLast?_eq_some_iff.1 hlast
  -- The folder is what the names before the last one lead to.
  have hfolders : folderNames path = withoutIdleEnd front := by
    rw [folderNames, hfront, withoutIdleEnd_append hidle, List.dropLast_concat]
  have hmade : d.ensureFolders (start path) (withoutIdleEnd front) = (e, .ok folder) := by
    unfold ensureFolderOf at h
    simp only at h
    split at h
    · cases h
    · split at h
      · cases h
      · rwa [hfolders] at h
  obtain ⟨hfollow, hfolder⟩ := follow_ensureFolders hmade (entry?_start d path)
  have hfollow : e.follow (start path) front = .ok folder := by
    obtain ⟨idle, hall, heq⟩ := exists_append_withoutIdleEnd front
    rw [heq, follow_append, hfollow]
    exact follow_idle hfolder hall
  have henter : e.enter folder name = .ok (folder ++ [name]) := by
    have hnotIdle : ¬ (name = "" ∨ name = ".") := by simpa [isIdle] using hidle
    rw [enter, hfolder]
    simp only [hnotIdle, hup, if_false, Nat.not_lt.2 hshort]
  have hempty : path ≠ "" := by
    rintro rfl
    have hcomponents : components "" = [""] := by decide
    rw [hcomponents] at hlast
    exact hne (Option.some.inj hlast).symm
  rw [locate, hinvalid, if_neg (by simp), if_neg hempty, if_neg (Nat.not_lt.2 hlong), hfront,
    follow_append, hfollow]
  simp only [Except.bind, follow, henter]

/-! ### Adding to a file -/

theorem getElem?_append_of_ne {d : Directory} {p : Place} {path : String} (h : p.path ≠ path)
    (text : String) : (d.append p text)[path]? = d[path]? := by
  unfold append
  split
  · rw [getElem?_put, if_neg h]
  · rfl

/-- What is added stands behind what was there. -/
theorem content?_append {d : Directory} {p : Place} (hp : p.isFixed = false) (text path : String) :
    (d.append p text).content? path =
      if p.path = path then (d.content? path).map (· ++ text) else d.content? path := by
  split
  · next heq =>
    subst heq
    unfold append
    rw [entry?_eq hp]
    split
    · next content h => simp [content?, getElem?_put, h]
    · next h =>
      unfold content?
      split <;> simp_all
  · next hne => exact content?_eq_of_getElem? (getElem?_append_of_ne hne text)

theorem sameShape_append (d : Directory) (p : Place) (text : String) :
    SameShape d (d.append p text) := by
  intro path
  unfold append
  split
  · next content h =>
    have hp : p.isFixed = false := isFixed_of_entry?_ne (d := d) (by simp [h])
    rw [entry?_eq hp] at h
    rw [getElem?_put]
    split
    · next heq =>
      rw [← heq, h]
      rfl
    · rfl
  · rfl

/-- Opening a file for its end finds a file or a device, or makes an empty file. -/
theorem openForAppend_cases {d e : Directory} {path : String} {p : Place}
    (h : d.openForAppend path = .ok (p, e)) :
    p.isFixed = false ∧ (e = d ∨ d[p.path]? = none ∧ e = d.put p (.file "")) := by
  unfold openForAppend at h
  split at h
  · cases h
  · next q _ =>
    split at h
    · cases h
    · cases h
    · next hfile _ =>
      cases h
      exact ⟨isFixed_of_entry?_ne (d := d) (by simp [hfile]), .inl rfl⟩
    · next hsink _ =>
      cases h
      exact ⟨isFixed_of_entry?_ne (d := d) (by simp [hsink]), .inl rfl⟩
    · next hn _ =>
      cases h
      have hp := isFixed_of_entry?_eq_none hn
      rw [entry?_eq hp] at hn
      exact ⟨hp, .inr ⟨hn, rfl⟩⟩

end Directory

end VariadicMacros

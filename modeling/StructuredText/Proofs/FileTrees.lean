import Mathlib.Data.List.Nodup
import Mathlib.Data.List.Perm.Basic
import StructuredText.FileTree.Text

/-!
# Places in file trees

What a path leads to depends on the directories of a tree alone, so that it stays the same when
files are written. Below a directory, each file has a path of its own, which leads to its place
unless it is too long.

Results:
1. `FileTree.locate_of_sameShape`: writing files moves no place.
2. `FileTree.bytes?_replace_self`, `FileTree.bytes?_replace_of_ne`: what replacing a file does to
   the places of a tree.
3. `FileTree.IsProper.exists_names_of_mem_filesBelow`: the paths of the files below a directory lead
   to them.
4. `FileTree.IsProper.nodup_filesBelow`: they are listed once each.
-/

namespace StructuredText.FileTree

variable {tree other : FileTree} {place directory : List String} {bytes : List UInt8} {path : Path}
  {ending : String}

/-- What holds of the trees on a disk: a place holds one file at most and no directory besides, the
places above a file are directories, and no name leads back. -/
structure IsProper (tree : FileTree) : Prop where
  distinct : (tree.files.map Prod.fst).Nodup
  noDirectory : ∀ file ∈ tree.files, tree.hasDirectory file.1 = false
  above : ∀ file ∈ tree.files, ∀ n < file.1.length, tree.hasDirectory (file.1.take n) = true
  forward : ∀ file ∈ tree.files, ".." ∉ file.1

/-! ## Following names -/

/-- Both trees have the same directories. -/
structure SameShape (tree other : FileTree) : Prop where
  home : other.home = tree.home
  directories : other.directories = tree.directories

namespace SameShape

variable {tree other third : FileTree}

theorem refl (tree : FileTree) : SameShape tree tree :=
  ⟨rfl, rfl⟩

theorem symm (h : SameShape tree other) : SameShape other tree :=
  ⟨h.home.symm, h.directories.symm⟩

theorem trans (h : SameShape tree other) (h' : SameShape other third) : SameShape tree third :=
  ⟨h'.home.trans h.home, h'.directories.trans h.directories⟩

theorem hasDirectory_eq (h : SameShape tree other) (place : List String) :
    other.hasDirectory place = tree.hasDirectory place := by
  rw [hasDirectory, hasDirectory, h.directories]

variable {result : Except Cause (List String)}

/-- Only where names lead nowhere, the files of a tree make a difference. -/
theorem follow_eq (h : SameShape tree other)
    (hresult : ∀ cause, result = .error cause → cause = .tooLong) (names : List String) :
    ∀ start, tree.follow start names = result → other.follow start names = result := by
  induction names with
  | nil => exact fun _ => id
  | cons name names ih =>
    intro start hfollow
    rw [follow] at hfollow ⊢
    rw [h.hasDirectory_eq]
    split at hfollow
    next hup => rw [if_pos hup, ih _ hfollow]
    next hup =>
      rw [if_neg hup]
      split at hfollow
      next hlong => rw [if_pos hlong, hfollow]
      next hlong =>
        rw [if_neg hlong]
        split at hfollow
        next hlast => rw [if_pos hlast, hfollow]
        next hlast =>
          rw [if_neg hlast]
          split at hfollow
          next hdirectory => rw [if_pos hdirectory, ih _ hfollow]
          next => split at hfollow <;> cases hresult _ hfollow.symm

theorem locate_eq (h : SameShape tree other)
    (hresult : ∀ cause, result = .error cause → cause = .tooLong) :
    other.locate path = result ↔ tree.locate path = result := by
  have hone : ∀ {tree other : FileTree}, SameShape tree other → tree.locate path = result →
      other.locate path = result := by
    intro tree other h hlocate
    rw [locate] at hlocate ⊢
    split at hlocate
    next hlong => rw [if_pos hlong, hlocate]
    next hlong =>
      rw [if_neg hlong, h.home]
      exact h.follow_eq hresult _ _ hlocate
  exact ⟨hone h.symm, hone h⟩

end SameShape

/-- Writing files moves no place. -/
theorem locate_of_sameShape (h : SameShape tree other) :
    other.locate path = .ok place ↔ tree.locate path = .ok place :=
  h.locate_eq nofun

theorem isTooLong_iff : tree.isTooLong path = true ↔ tree.locate path = .error .tooLong := by
  rw [isTooLong]
  split <;> simp_all

/-- Names behind those that lead to a directory are followed from there. -/
theorem follow_append {later : List String} (hdirectory : tree.hasDirectory directory = true)
    (hlater : later ≠ []) (names : List String) :
    ∀ start, tree.follow start names = .ok directory →
      tree.follow start (names ++ later) = tree.follow directory later := by
  induction names with
  | nil =>
    intro start hfollow
    cases hfollow
    rfl
  | cons name names ih =>
    intro start hfollow
    rw [follow] at hfollow
    rw [List.cons_append, follow]
    have hmore : (names ++ later).isEmpty = false := by simp [hlater]
    split at hfollow
    next hup => rw [if_pos hup, ih _ hfollow]
    next hup =>
      rw [if_neg hup]
      split at hfollow
      · cases hfollow
      next hshort =>
        rw [if_neg hshort, hmore, if_neg Bool.false_ne_true]
        split at hfollow
        next hlast =>
          -- The last name leads to the directory itself.
          cases hfollow
          rw [if_pos hdirectory, List.isEmpty_iff.mp hlast, List.nil_append]
        next =>
          split at hfollow
          next hon => rw [if_pos hon, ih _ hfollow]
          next => split at hfollow <;> cases hfollow

variable {last : String} {names : List String} {found : Path}

/-- Names that do not lead back are followed as long as they are those of directories, unless one
of them is too long. -/
theorem follow_forward (hlast : last ≠ "..") (names : List String) :
    ∀ start, ".." ∉ names →
      (∀ n < names.length, tree.hasDirectory (start ++ names.take (n + 1)) = true) →
      tree.follow start (names ++ [last]) = .ok (start ++ names ++ [last]) ∨
        tree.follow start (names ++ [last]) = .error .tooLong := by
  induction names with
  | nil =>
    intro start _ _
    by_cases hlong : byteCount last > mostNameBytes
    · exact .inr (by simp [follow, hlast, hlong])
    · exact .inl (by simp [follow, hlast, hlong])
  | cons name names ih =>
    intro start hforward habove
    rw [List.mem_cons, not_or] at hforward
    have hfirst := habove 0 (by simp)
    simp only [Nat.zero_add, List.take_succ_cons, List.take_zero] at hfirst
    rw [List.cons_append, follow, if_neg (Ne.symm hforward.1)]
    by_cases hlong : byteCount name > mostNameBytes
    · exact .inr (if_pos hlong)
    · rw [if_neg hlong, if_neg (by simp), if_pos hfirst]
      refine (ih _ hforward.2 fun n hn => ?_).imp_left fun h => ?_
      · simpa using habove (n + 1) (by simpa using hn)
      · simpa using h

/-! ## Writing files -/

section

variable (h : tree.replace path ending bytes = .ok other)
include h

/-- What can be replaced has a place, and so has the temporary file beside it. -/
theorem replace_eq_ok :
    ∃ place besides, tree.locate path = .ok place ∧
      tree.locate (path.withEnding ending) = .ok besides ∧
      other = (tree.erase besides).put place bytes := by
  rw [replace] at h
  cases hplace : tree.locate path with
  | error cause =>
    rw [hplace] at h
    cases h
  | ok place =>
    cases hbesides : tree.locate (path.withEnding ending) with
    | error cause =>
      rw [hplace, hbesides] at h
      cases h
    | ok besides =>
      rw [hplace, hbesides] at h
      refine ⟨place, besides, rfl, rfl, ?_⟩
      simp only [Except.mapError, bind, Except.bind] at h
      split at h
      · cases h
      · cases h
        rfl

theorem sameShape_of_replace :
    SameShape tree other := by
  obtain ⟨place, besides, -, -, rfl⟩ := replace_eq_ok h
  exact ⟨rfl, rfl⟩

theorem bytes?_replace_self
    (hplace : tree.locate path = .ok place) : other.bytes? place = some bytes := by
  obtain ⟨_, besides, hlocate, -, rfl⟩ := replace_eq_ok h
  cases hplace.symm.trans hlocate
  exact bytes?_put_self _ _ _

/-- Only the places of the file and of the temporary file are written to. -/
theorem bytes?_replace_of_ne (hpath : tree.locate path ≠ .ok place)
    (hbesides : tree.locate (path.withEnding ending) ≠ .ok place) :
    other.bytes? place = tree.bytes? place := by
  obtain ⟨target, besides, htarget, hother, rfl⟩ := replace_eq_ok h
  have hne : place ≠ target := by
    rintro rfl
    exact hpath htarget
  have hne' : place ≠ besides := by
    rintro rfl
    exact hbesides hother
  rw [bytes?_put_of_ne hne, bytes?_erase_of_ne hne']

end

/-- A path is read alike in trees that have the same at its place. -/
theorem read_congr (h : SameShape tree other) (hplace : tree.locate path = .ok place)
    (hbytes : other.bytes? place = tree.bytes? place) : other.read path = tree.read path := by
  have hother := (locate_of_sameShape h).mpr hplace
  rw [read, read, hplace, hother]
  simp only [h.hasDirectory_eq, hbytes]

theorem readText_congr (h : other.read path = tree.read path) :
    other.readText path = tree.readText path := by
  rw [readText, readText, h]

/-- A file that has been replaced is read as it was written. -/
theorem read_replace_self {old : List UInt8} (h : tree.replace path ending bytes = .ok other)
    (hread : tree.read path = .ok old) : other.read path = .ok bytes := by
  obtain ⟨place, -, hplace, -, -⟩ := replace_eq_ok h
  have hshape := sameShape_of_replace h
  rw [read, hplace] at hread
  rw [read, (locate_of_sameShape hshape).mpr hplace]
  simp only [hshape.hasDirectory_eq, bytes?_replace_self h hplace] at hread ⊢
  split at hread
  · cases hread
  · next hno => rw [if_neg hno]

/-! ## Files below a directory -/

theorem namesBelow_eq_some :
    namesBelow directory place = some names ↔ place = directory ++ names := by
  rw [namesBelow]
  constructor
  · intro h
    split at h
    · next hprefix =>
      obtain ⟨rest, rfl⟩ := List.isPrefixOf_iff_prefix.mp hprefix
      rw [List.drop_left] at h
      cases h
      rfl
    · cases h
  · rintro rfl
    rw [if_pos (List.isPrefixOf_iff_prefix.mpr (List.prefix_append _ _)), List.drop_left]

/-- From a directory, the names of a file below it are followed to their end, and so is any other
last name, unless they are too long. -/
theorem IsProper.follow_eq (proper : tree.IsProper) {name : String}
    (hfile : (directory ++ (names ++ [last]), bytes) ∈ tree.files) (hname : name ≠ "..") :
    tree.follow directory (names ++ [name]) = .ok (directory ++ names ++ [name]) ∨
      tree.follow directory (names ++ [name]) = .error .tooLong := by
  refine follow_forward hname names directory ?_ ?_
  · intro hmem
    exact proper.forward _ hfile (by simp [hmem])
  · intro n hn
    have habove := proper.above _ hfile (directory.length + (n + 1)) (by simp; omega)
    rwa [List.take_length_add_append, List.take_append_of_le_length hn] at habove

/-- The path of a file below a directory leads to the file, and with another last name to a place
beside it, unless it is too long. -/
theorem IsProper.exists_names_of_mem_filesBelow (proper : tree.IsProper)
    (hpath : tree.locate path = .ok directory) (hdirectory : tree.hasDirectory directory = true)
    (hfound : found ∈ tree.filesBelow path) :
    ∃ names last, last ≠ ".." ∧ found = path.below (names ++ [last]) ∧
      ∀ name ≠ "..",
        tree.locate (path.below (names ++ [name])) = .ok (directory ++ names ++ [name]) ∨
          tree.isTooLong (path.below (names ++ [name])) = true := by
  rw [filesBelow, hpath] at hfound
  obtain ⟨below, hbelow, rfl⟩ := List.mem_map.mp hfound
  rw [List.mem_mergeSort] at hbelow
  obtain ⟨⟨place, bytes⟩, hfile, hnames⟩ := List.mem_filterMap.mp hbelow
  have hplace : place = directory ++ below := namesBelow_eq_some.mp hnames
  subst hplace
  rcases List.eq_nil_or_concat below with rfl | ⟨names, last, rfl⟩
  · -- The directory itself is no file.
    have := proper.noDirectory _ hfile
    rw [List.append_nil, hdirectory] at this
    cases this
  · rw [List.concat_eq_append] at hfile ⊢
    refine ⟨names, last, ?_, rfl, fun name hname => ?_⟩
    · rintro rfl
      exact proper.forward _ hfile (by simp)
    · rw [locate] at hpath
      split at hpath
      · cases hpath
      rw [isTooLong_iff, locate]
      split
      · exact .inr rfl
      · rw [Path.below, follow_append hdirectory (by simp) _ _ hpath]
        exact proper.follow_eq hfile hname

/-- Where the files below a directory can be found, none of their paths is too long. -/
theorem isTooLong_of_mem_filesBelow [Host] (hsearch : tree.searchFault path = none)
    (hpath : tree.locate path = .ok directory) (hdirectory : tree.hasDirectory directory = true)
    (hfound : found ∈ tree.filesBelow path) : tree.isTooLong found = false := by
  rw [searchFault, hpath] at hsearch
  simp only [hdirectory, if_true] at hsearch
  rw [filesBelow, hpath] at hfound
  obtain ⟨below, hbelow, rfl⟩ := List.mem_map.mp hfound
  rw [List.mem_mergeSort] at hbelow
  split at hsearch
  · cases hsearch
  next hnone =>
    have hshort := List.find?_eq_none.mp hnone (path.below below)
      (List.mem_map_of_mem (List.mem_append_right _ hbelow))
    exact Bool.eq_false_iff.mpr hshort

theorem below_injective (path : Path) : Function.Injective path.below := by
  intro names names' h
  exact List.append_cancel_left (congrArg Path.names h)

/-- The files below a directory are listed once each. -/
theorem IsProper.nodup_filesBelow (proper : tree.IsProper) (path : Path) :
    (tree.filesBelow path).Nodup := by
  rw [filesBelow]
  split
  · exact List.nodup_nil
  · next directory _ =>
    refine List.Nodup.map (below_injective path) ?_
    rw [(List.mergeSort_perm _ _).nodup_iff]
    have hnames := proper.distinct.filterMap (f := namesBelow directory) ?_
    · rwa [List.filterMap_map] at hnames
    · intro place place' names hplace hplace'
      rw [namesBelow_eq_some.mp hplace, namesBelow_eq_some.mp hplace']

end StructuredText.FileTree

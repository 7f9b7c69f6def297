import SiteTree.Proofs.Disk.Removal
import SiteTree.Proofs.Disk.Ways
import Mathlib.Data.List.Nodup

/-!
# Disks as file systems keep them

A location has one entry, every name is one that the file system takes, links have targets, and a
program works in a directory that is there. Single changes keep a disk that way.

* `WellFormed.set`, `WellFormed.eraseTree` — single changes keep disks well-formed.
-/

namespace SiteTree.Disk

/-- A tree with one entry for each location. -/
structure WellFormed (disk : Disk) : Prop extends disk.IsTree where
  nodup : (disk.entries.map Prod.fst).Nodup
  isFileName : ∀ entry ∈ disk.entries, ∀ name ∈ entry.1, IsFileName name
  pointed : ∀ entry ∈ disk.entries, entry.2 ≠ .link ⟨""⟩
  workDir : disk.get? disk.workDir = some .directory

variable {disk : Disk} {location here : Location} {entry : Entry} {name : String}

/-- A disk is well-formed if each of its entries is. -/
theorem wellFormed_of_entries (h : ∀ entry ∈ disk.entries, (∀ name ∈ entry.1, IsFileName name) ∧
      disk.get? entry.1.dropLast = some .directory ∧ entry.2 ≠ .link ⟨""⟩)
    (hnodup : (disk.entries.map Prod.fst).Nodup) (hworkDir : disk.get? disk.workDir = some .directory) :
    disk.WellFormed where
  toIsTree := isTree_of_entries fun entry hentry =>
    ⟨fun name hname => ((h entry hentry).1 name hname).toIsEntryName, (h entry hentry).2.1⟩
  nodup := hnodup
  isFileName := fun entry hentry => (h entry hentry).1
  pointed := fun entry hentry => (h entry hentry).2.2
  workDir := hworkDir

/-! ### Entries -/

theorem lookup_eq_some_of_mem {entries : List (Location × Entry)}
    (hnodup : (entries.map Prod.fst).Nodup) (h : (location, entry) ∈ entries) :
    entries.lookup location = some entry := by
  induction entries with
  | nil => cases h
  | cons first entries ih =>
    obtain ⟨key, value⟩ := first
    rw [List.map_cons, List.nodup_cons] at hnodup
    rw [lookup_cons_ite]
    rcases List.mem_cons.mp h with heq | h
    · cases heq
      simp
    · rw [if_neg]
      · exact ih hnodup.2 h
      · intro hkey
        have hmem : location ∈ entries.map Prod.fst := List.mem_map.mpr ⟨_, h, rfl⟩
        rw [eq_of_beq hkey] at hmem
        exact hnodup.1 hmem

theorem map_fst_putEntry (entries : List (Location × Entry)) :
    (putEntry location entry entries).map Prod.fst
      = if location ∈ entries.map Prod.fst then entries.map Prod.fst
        else entries.map Prod.fst ++ [location] := by
  induction entries with
  | nil => simp [putEntry]
  | cons first entries ih =>
    rw [putEntry]
    by_cases hfirst : first.1 = location
    · rw [if_pos hfirst]
      simp [hfirst]
    · rw [if_neg hfirst, List.map_cons, ih]
      by_cases hmem : location ∈ entries.map Prod.fst
      · simp [hmem]
      · simp [hmem, Ne.symm hfirst]

theorem nodup_putEntry {entries : List (Location × Entry)} (h : (entries.map Prod.fst).Nodup) :
    ((putEntry location entry entries).map Prod.fst).Nodup := by
  rw [map_fst_putEntry]
  split
  · exact h
  · next hnew =>
    refine List.nodup_append.mpr ⟨h, List.nodup_singleton _, fun other hother last hlast heq => ?_⟩
    rw [heq, List.mem_singleton.mp hlast] at hother
    exact hnew hother

namespace WellFormed

variable (hdisk : disk.WellFormed)

include hdisk

theorem mem_entries_iff (hroot : location ≠ []) :
    (location, entry) ∈ disk.entries ↔ disk.get? location = some entry := by
  refine ⟨fun hmem => ?_, mem_of_get? hroot⟩
  obtain ⟨name, rest, rfl⟩ := List.exists_cons_of_ne_nil hroot
  exact lookup_eq_some_of_mem hdisk.nodup hmem

theorem isFileName_of_get? (h : disk.get? location = some entry) :
    ∀ name ∈ location, IsFileName name := fun name hname =>
  hdisk.isFileName _ (mem_of_get? (List.ne_nil_of_mem hname) h) name hname

theorem ne_empty_of_link {target : Path} (h : disk.get? location = some (.link target)) :
    target.text ≠ "" := by
  rintro hempty
  obtain ⟨text⟩ := target
  obtain rfl : text = "" := hempty
  have hroot : location ≠ [] := by
    rintro rfl
    cases h
  exact hdisk.pointed _ (mem_of_get? hroot h) rfl

/-- What is put in a directory, and not in the place of one, keeps the disk well-formed. -/
theorem set (hname : IsFileName name) (hhere : disk.get? here = some .directory)
    (hold : disk.get? (here ++ [name]) ≠ some .directory) (hentry : entry ≠ .link ⟨""⟩) :
    (disk.set (here ++ [name]) entry).WellFormed where
  toIsTree := hdisk.toIsTree.set hname.toIsEntryName hhere hold
  nodup := nodup_putEntry hdisk.nodup
  isFileName := by
    intro other hother part hpart
    rcases mem_putEntry hother with rfl | hother
    · rcases List.mem_append.mp hpart with hpart | hpart
      · exact hdisk.isFileName_of_get? hhere part hpart
      · rwa [List.mem_singleton.mp hpart]
    · exact hdisk.isFileName other hother part hpart
  pointed := by
    intro other hother
    rcases mem_putEntry hother with rfl | hother
    · exact hentry
    · exact hdisk.pointed other hother
  workDir := by
    have hwork := hdisk.workDir
    refine (get?_set (by simp) _).trans ?_
    rw [if_neg]
    · exact hwork
    · intro heq
      change disk.workDir = _ at heq
      rw [heq] at hwork
      exact hold hwork

/-- What is no directory can be removed. -/
theorem eraseTree (hold : disk.get? location ≠ some .directory) :
    (disk.eraseTree location).WellFormed where
  toIsTree := hdisk.toIsTree.eraseTree location
  nodup := hdisk.nodup.sublist ((List.filter_sublist).map Prod.fst)
  isFileName := fun other hother => hdisk.isFileName other (List.mem_filter.mp hother).1
  pointed := fun other hother => hdisk.pointed other (List.mem_filter.mp hother).1
  workDir := by
    have hwork := hdisk.workDir
    have houtside : ¬ location <+: disk.workDir := by
      intro hprefix
      by_cases heq : location = disk.workDir
      · rw [← heq] at hwork
        exact hold hwork
      · exact hold (hdisk.get?_of_prefix (by rw [hwork]; rfl) hprefix heq)
    exact (get?_eraseTree_outside houtside).trans hwork

end WellFormed

end SiteTree.Disk

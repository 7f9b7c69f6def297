import SiteTree.Proofs.Disk.Writes
import SiteTree.Proofs.Outcome

/-!
# Reading beside writes

A file is read at the place where a write to its path would put it. So a write that goes to another
place changes nothing for whoever reads the file.

* `find_eq_file_iff` — reading and writing lead to the same place.
* `readText_putAll` — what can be read is the same before and after writes that go elsewhere.
-/

namespace SiteTree.Disk

variable {disk : Disk} {links : Nat} {here location : Location} {name : String}
  {rest names : List String} {slash : Bool} {content : List UInt8}

/-! ### Walks that end at a file -/

theorem get?_of_walk {purpose : Purpose} {entry : Option Entry}
    (h : disk.walk purpose links here names slash = .ok ⟨location, entry⟩)
    (hentry : entry ≠ some .directory) : disk.get? location = entry := by
  fun_induction Disk.walk disk purpose links here names slash
  case case2 ih => exact ih h
  case case3 ih => exact ih h
  case case8 ih => exact ih h
  case case13 ih => exact ih h
  case case1 =>
    cases h
    exact absurd rfl hentry
  case case6 found hnone hlast =>
    obtain ⟨rfl, rfl⟩ : found = location ∧ none = entry := by simpa using h
    exact hnone
  case case9 found content hfile hlast =>
    obtain ⟨rfl, rfl⟩ : found = location ∧ some (.file content) = entry := by simpa using h
    exact hfile
  case case11 found target hlink hlook =>
    obtain ⟨rfl, rfl⟩ : found = location ∧ some (.link target) = entry := by simpa using h
    exact hlink
  all_goals cases h

/-- No slash comes behind the name of a file. -/
theorem slash_of_walk {purpose : Purpose}
    (h : disk.walk purpose links here names slash = .ok ⟨location, some (.file content)⟩) :
    slash = false := by
  fun_induction Disk.walk disk purpose links here names slash
  case case2 ih => exact ih h
  case case3 ih => exact ih h
  case case8 ih => exact ih h
  case case13 ih => exact (Bool.or_eq_false_iff.mp (ih h)).1
  case case9 hfile hlast => simpa using hlast.2
  all_goals simp at h

theorem walk_reach_free (hhere : name ≠ ".") (hup : name ≠ "..")
    (hlong : ¬ maxName < name.utf8ByteSize) :
    disk.walk .reach links here (name :: rest) slash
      = match disk.get? (here ++ [name]) with
        | none => if rest.isEmpty then .ok ⟨here ++ [name], none⟩ else .error .notFound
        | some .directory => disk.walk .reach links (here ++ [name]) rest slash
        | some (.file content) =>
          if rest.isEmpty ∧ !slash then .ok ⟨here ++ [name], some (.file content)⟩
          else .error .notDirectory
        | some (.link target) =>
          match links with
          | 0 => .error .tooManyLinks
          | links + 1 =>
            disk.walk .reach links (routeFrom here target).start
              ((routeFrom here target).names ++ rest)
              (slash || (rest.isEmpty && (routeFrom here target).slash)) := by
  rw [walk, if_neg hhere, if_neg hup, if_neg (by simp), if_neg hlong]
  dsimp only
  rcases disk.get? (here ++ [name]) with _ | _ | _ | target
  · rfl
  · rfl
  · rfl
  · exact if_neg fun h => absurd h.1 (by decide)

/-- A walk to read and a walk to write end at the same files. -/
theorem walk_write_eq_file_iff :
    disk.walk .write links here names slash = .ok ⟨location, some (.file content)⟩
      ↔ disk.walk .reach links here names slash = .ok ⟨location, some (.file content)⟩ := by
  induction links, here, names, slash using Disk.walk.induct disk .write with
  | case1 => rw [walk, walk]
  | case2 links here slash rest ih =>
    rw [walk, if_pos rfl, walk, if_pos rfl]
    exact ih
  | case3 links here slash rest hhere ih =>
    rw [walk, if_neg hhere, if_pos rfl, walk, if_neg hhere, if_pos rfl]
    exact ih
  | case4 links here slash name rest hhere hup hslash =>
    rw [walk, if_neg hhere, if_neg hup, if_pos hslash]
    exact iff_of_false (by simp) fun h => absurd ((slash_of_walk h).symm.trans hslash.2.2) (by simp)
  | case5 links here slash name rest hhere hup hslash hlong =>
    rw [walk, if_neg hhere, if_neg hup, if_neg hslash, if_pos hlong, walk, if_neg hhere, if_neg hup,
      if_neg (by simp), if_pos hlong]
  | case6 links here slash name rest hhere hup hslash hlong found hentry
  | case7 links here slash name rest hhere hup hslash hlong found hentry
  | case9 links here slash name rest hhere hup hslash hlong found content hentry
  | case10 links here slash name rest hhere hup hslash hlong found content hentry
  | case12 here slash name rest hhere hup hslash hlong found target hentry =>
    rw [walk_free hhere hup (not_refused hslash hlong), walk_reach_free hhere hup hlong, hentry]
  | case8 links here slash name rest hhere hup hslash hlong found hentry ih
  | case13 here slash name rest hhere hup hslash hlong found target hentry _ links route ih =>
    rw [walk_free hhere hup (not_refused hslash hlong), walk_reach_free hhere hup hlong, hentry]
    exact ih
  | case11 links here slash name rest hhere hup hslash hlong found target hentry hlook =>
    exact absurd hlook.1 (by decide)

/-! ### Reading -/

/-- A file is found at the place that a write to its path would go to. -/
theorem find_eq_file_iff {path : Path} : disk.find path = .ok (location, .file content)
    ↔ disk.target? path = some location ∧ disk.get? location = some (.file content) := by
  rw [find, target?, locate, locate]
  cases disk.route path with
  | error error => simp [bind, Except.bind, Spot.vacant?]
  | ok route =>
    simp only [bind, Except.bind]
    constructor
    · intro h
      rcases hspot : disk.walk .reach maxLinks route.start route.names route.slash with
        error | ⟨found, _ | _ | old | target⟩
      all_goals rw [hspot] at h
      all_goals cases h
      refine ⟨?_, get?_of_walk hspot (by simp)⟩
      rw [walk_write_eq_file_iff.mpr hspot]
      rfl
    · rintro ⟨hvacant, hfile⟩
      have hspot : disk.walk .write maxLinks route.start route.names route.slash
          = .ok ⟨location, some (.file content)⟩ := by
        rcases hspot : disk.walk .write maxLinks route.start route.names route.slash with
          error | ⟨found, entry⟩
        · rw [hspot] at hvacant
          cases hvacant
        · have hdirectory : entry ≠ some .directory := by
            rintro rfl
            rw [hspot] at hvacant
            cases hvacant
          obtain rfl : found = location := by
            rw [hspot] at hvacant
            rcases entry with _ | _ | _ | _
            all_goals cases hvacant
            all_goals rfl
          rw [← get?_of_walk hspot hdirectory, hfile]
      rw [walk_write_eq_file_iff.mp hspot]

/-- A file is read at the place that a write to its path would go to. -/
theorem readBytes_eq_ok_iff {path : Path} :
    disk.readBytes path = .ok content
      ↔ ∃ location, disk.target? path = some location ∧
          disk.get? location = some (.file content) := by
  rw [readBytes]
  constructor
  · intro h
    obtain ⟨⟨location, _ | found | target⟩, hfind, h⟩ := exists_of_bind_eq_ok h
    · cases h
    · cases h
      exact ⟨location, find_eq_file_iff.mp hfind⟩
    · cases h
  · rintro ⟨location, h⟩
    rw [find_eq_file_iff.mpr h]
    rfl

/-- A write that goes elsewhere leaves a file readable as it was. -/
theorem readBytes_put {path : Path} {write : Path × List UInt8}
    (h : disk.target? path ≠ disk.target? write.1) :
    (disk.put write).readBytes path = .ok content ↔ disk.readBytes path = .ok content := by
  rw [readBytes_eq_ok_iff, readBytes_eq_ok_iff, ← target?_congr (sameFrame_put disk write)]
  refine exists_congr fun location => and_congr_right fun htarget => ?_
  rw [get?_put, if_neg]
  exact fun hwrite => h (htarget.trans hwrite.symm)

theorem readText_eq_ok_iff {path : Path} {text : String} :
    disk.readText path = .ok text
      ↔ ∃ content, disk.readBytes path = .ok content ∧ Text.decodeUtf8 content = .ok text := by
  rw [readText]
  cases disk.readBytes path with
  | error error => simp [bind, Except.bind]
  | ok content =>
    simp only [bind, Except.bind, Except.ok.injEq, exists_eq_left']
    cases Text.decodeUtf8 content with
    | error error => simp
    | ok text => simp

/-- The text of a file that the names of a path lead to. -/
theorem readText_of_walk {path : Path} {route : Route} {text : String}
    (hroute : disk.route path = .ok route)
    (hwalk : disk.walk .reach maxLinks route.start route.names route.slash
      = .ok ⟨location, some (.file (Text.encodeUtf8 text))⟩) : disk.readText path = .ok text := by
  have hfind : disk.find path = .ok (location, .file (Text.encodeUtf8 text)) := by
    rw [find, locate, hroute]
    simp [hwalk, bind, Except.bind]
  rw [readText, readBytes, hfind]
  simp [Text.decodeUtf8_encodeUtf8, bind, Except.bind]

theorem target?_putAll (path : Path) (writes : List (Path × List UInt8)) :
    ∀ {disk : Disk}, (disk.putAll writes).target? path = disk.target? path := by
  induction writes with
  | nil => exact rfl
  | cons write writes ih =>
    intro disk
    exact ih.trans (target?_congr (sameFrame_put disk write) path).symm

/-- What can be read is the same before and after writes that go elsewhere. -/
theorem readText_putAll {path : Path} {text : String} (writes : List (Path × List UInt8)) :
    ∀ {disk : Disk}, (∀ write ∈ writes, disk.target? path ≠ disk.target? write.1) →
      ((disk.putAll writes).readText path = .ok text ↔ disk.readText path = .ok text) := by
  induction writes with
  | nil => exact fun _ => Iff.rfl
  | cons write writes ih =>
    intro disk h
    have hframe := sameFrame_put disk write
    refine (ih fun other hother => ?_).trans ?_
    · rw [← target?_congr hframe, ← target?_congr hframe]
      exact h other (List.mem_cons_of_mem _ hother)
    · rw [readText_eq_ok_iff, readText_eq_ok_iff]
      exact exists_congr fun content =>
        and_congr_left fun _ => readBytes_put (h write List.mem_cons_self)

end SiteTree.Disk

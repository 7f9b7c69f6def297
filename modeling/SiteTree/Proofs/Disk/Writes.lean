import SiteTree.Disk.Change

/-!
# Writing several files

Where a write goes depends on the directories and links of a disk only, and writing changes
none of them. So writes that go to different places do not see each other.

* `get?_writeAll_of_perm` — the order of such writes makes no difference to what is where.
-/

namespace SiteTree.Disk

/-! ### The frame of a disk -/

/-- An entry that paths lead through. -/
def leadsOn : Option Entry → Option Entry
  | some .directory => some .directory
  | some (.link target) => some (.link target)
  | _ => none

/-- Do two disks have the same directories and links? -/
structure SameFrame (first second : Disk) : Prop where
  workDir : first.workDir = second.workDir
  entries : ∀ location, leadsOn (first.get? location) = leadsOn (second.get? location)

/-! ### Where a write goes -/

/-- The place that a walk leads a write to, unless it is a directory. -/
def Spot.vacant? : Except DiskError Spot → Option Location
  | .ok ⟨_, some .directory⟩ => none
  | .ok ⟨location, _⟩ => some location
  | .error _ => none

/-- The location at which a write to a path puts the file; `none` when the write is refused. -/
def target? (disk : Disk) (path : Path) : Option Location :=
  Spot.vacant? (disk.locate .write path)

theorem writeBytes_of_target? {disk : Disk} {path : Path} {location : Location}
    (h : disk.target? path = some location) (content : List UInt8) :
    disk.writeBytes path content = .ok (disk.set location (.file content)) := by
  rw [target?] at h
  rw [writeBytes]
  rcases hspot : disk.locate .write path with error | ⟨found, entry⟩
  · simp [hspot, Spot.vacant?] at h
  · rw [hspot] at h
    cases entry with
    | none =>
      cases h
      rfl
    | some entry =>
      cases entry with
      | directory => cases h
      | file old =>
        cases h
        rfl
      | link old =>
        cases h
        rfl

theorem exists_error_of_target? {disk : Disk} {path : Path} (h : disk.target? path = none)
    (content : List UInt8) : ∃ error, disk.writeBytes path content = .error error := by
  rw [target?] at h
  rw [writeBytes]
  rcases hspot : disk.locate .write path with error | ⟨found, entry⟩
  · exact ⟨error, rfl⟩
  · rw [hspot] at h
    cases entry with
    | none => cases h
    | some entry =>
      cases entry with
      | directory => exact ⟨.isDirectory, rfl⟩
      | file old => cases h
      | link old => cases h

/-! ### Steps of a write -/

section Steps

variable {disk : Disk} {links : Nat} {here : Location} {name : String} {rest : List String}
  {slash : Bool}

theorem leadsOn_eq_directory {entry : Option Entry} (h : leadsOn entry = some .directory) :
    entry = some .directory := by
  rcases entry with _ | _ | _ | _
  all_goals first | rfl | cases h

theorem leadsOn_eq_link {entry : Option Entry} {target : Path}
    (h : leadsOn entry = some (.link target)) : entry = some (.link target) := by
  rcases entry with _ | _ | _ | _
  all_goals first | exact h | cases h

theorem leadsOn_ne_file (entry : Option Entry) (content : List UInt8) :
    leadsOn entry ≠ some (.file content) := by
  rcases entry with _ | _ | _ | _
  all_goals exact nofun

/-- A name that a walk stops at before it looks at the disk. -/
def Refused (name : String) (rest : List String) (slash : Bool) : Prop :=
  rest.isEmpty = true ∧ slash = true ∨ maxName < name.utf8ByteSize

instance : Decidable (Refused name rest slash) :=
  inferInstanceAs (Decidable (_ ∨ _))

theorem not_refused
    (hslash : ¬ (Purpose.write = .write ∧ rest.isEmpty = true ∧ slash = true))
    (hlong : ¬ maxName < name.utf8ByteSize) : ¬ Refused name rest slash := by
  rintro (h | h)
  · exact hslash ⟨rfl, h⟩
  · exact hlong h

theorem vacant?_walk_refused (hhere : name ≠ ".") (hup : name ≠ "..")
    (h : Refused name rest slash) :
    Spot.vacant? (disk.walk .write links here (name :: rest) slash) = none := by
  rw [walk, if_neg hhere, if_neg hup]
  split
  · rfl
  · next hslash =>
    rcases h with ⟨hempty, hslash'⟩ | hlong
    · exact absurd ⟨rfl, hempty, hslash'⟩ hslash
    · rw [if_pos hlong]
      rfl

variable (hhere : name ≠ ".") (hup : name ≠ "..") (hfree : ¬ Refused name rest slash)

include hhere hup hfree

theorem walk_free : disk.walk .write links here (name :: rest) slash
    = match disk.get? (here ++ [name]) with
      | none => if rest.isEmpty then .ok ⟨here ++ [name], none⟩ else .error .notFound
      | some .directory => disk.walk .write links (here ++ [name]) rest slash
      | some (.file content) =>
        if rest.isEmpty ∧ !slash then .ok ⟨here ++ [name], some (.file content)⟩
        else .error .notDirectory
      | some (.link target) =>
        match links with
        | 0 => .error .tooManyLinks
        | links + 1 =>
          disk.walk .write links (routeFrom here target).start
            ((routeFrom here target).names ++ rest)
            (slash || (rest.isEmpty && (routeFrom here target).slash)) := by
  simp only [Refused, not_or] at hfree
  rw [walk, if_neg hhere, if_neg hup, if_neg (fun h => hfree.1 h.2), if_neg hfree.2]
  dsimp only
  rcases disk.get? (here ++ [name]) with _ | _ | _ | target
  · rfl
  · rfl
  · rfl
  · exact if_neg fun h => absurd h.1 (by decide)

/-- Where there is no directory and no link, a write stops. -/
theorem vacant?_walk_nothing (h : leadsOn (disk.get? (here ++ [name])) = none) :
    Spot.vacant? (disk.walk .write links here (name :: rest) slash)
      = if rest.isEmpty then some (here ++ [name]) else none := by
  rw [walk_free hhere hup hfree]
  simp only [Refused, not_or, not_and, Bool.not_eq_true] at hfree
  rcases hentry : disk.get? (here ++ [name]) with _ | _ | content | target
  · cases rest.isEmpty with
    | false => rfl
    | true => rfl
  · rw [hentry] at h
    cases h
  · cases hempty : rest.isEmpty with
    | false => rfl
    | true =>
      rw [hfree.1 hempty]
      rfl
  · rw [hentry] at h
    cases h

theorem walk_directory (h : leadsOn (disk.get? (here ++ [name])) = some .directory) :
    disk.walk .write links here (name :: rest) slash
      = disk.walk .write links (here ++ [name]) rest slash := by
  rw [walk_free hhere hup hfree, leadsOn_eq_directory h]

theorem walk_link {target : Path} (h : leadsOn (disk.get? (here ++ [name])) = some (.link target)) :
    disk.walk .write links here (name :: rest) slash
      = match links with
        | 0 => .error .tooManyLinks
        | links + 1 =>
          disk.walk .write links (routeFrom here target).start
            ((routeFrom here target).names ++ rest)
            (slash || (rest.isEmpty && (routeFrom here target).slash)) := by
  rw [walk_free hhere hup hfree, leadsOn_eq_link h]

end Steps

/-- A write goes to a place below the root where there is no directory and no link. -/
theorem leadsOn_of_vacant? {disk : Disk} {links : Nat} {here location : Location}
    {names : List String} {slash : Bool}
    (h : Spot.vacant? (disk.walk .write links here names slash) = some location) :
    location ≠ [] ∧ leadsOn (disk.get? location) = none := by
  fun_induction Disk.walk disk .write links here names slash
  case case2 ih => exact ih h
  case case3 ih => exact ih h
  case case8 ih => exact ih h
  case case13 ih => exact ih h
  case case6 found hentry hempty =>
    obtain rfl : found = location := Option.some.inj h
    exact ⟨by simp [found], by rw [hentry]; rfl⟩
  case case9 found content hentry hlast =>
    obtain rfl : found = location := Option.some.inj h
    exact ⟨by simp [found], by rw [hentry]; rfl⟩
  case case11 hlook => exact absurd hlook.1 (by decide)
  all_goals cases h

theorem leadsOn_of_target? {disk : Disk} {path : Path} {location : Location}
    (h : disk.target? path = some location) :
    location ≠ [] ∧ leadsOn (disk.get? location) = none := by
  rw [target?, locate] at h
  cases hroute : disk.route path with
  | error error =>
    rw [hroute] at h
    cases h
  | ok route =>
    rw [hroute] at h
    exact leadsOn_of_vacant? h

/-- Where a write goes depends on directories and links only. -/
theorem vacant?_walk_congr {first second : Disk} (hframe : SameFrame first second) (links : Nat)
    (here : Location) (names : List String) (slash : Bool) :
    Spot.vacant? (first.walk .write links here names slash)
      = Spot.vacant? (second.walk .write links here names slash) := by
  -- A write stops at the same place of both disks when the first has nothing to follow there.
  have hstop : ∀ {links here name rest slash}, name ≠ "." → name ≠ ".." →
      ¬ Refused name rest slash → leadsOn (first.get? (here ++ [name])) = none →
      Spot.vacant? (first.walk .write links here (name :: rest) slash)
        = Spot.vacant? (second.walk .write links here (name :: rest) slash) := by
    intro links here name rest slash hhere hup hfree hentry
    rw [vacant?_walk_nothing hhere hup hfree hentry,
      vacant?_walk_nothing hhere hup hfree (hframe.entries _ ▸ hentry)]
  induction links, here, names, slash using Disk.walk.induct first .write with
  | case1 => rw [walk, walk]
  | case2 links here slash rest ih =>
    rw [walk, if_pos rfl, walk, if_pos rfl]
    exact ih
  | case3 links here slash rest hhere ih =>
    rw [walk, if_neg hhere, if_pos rfl, walk, if_neg hhere, if_pos rfl]
    exact ih
  | case4 links here slash name rest hhere hup hslash =>
    have hrefused : Refused name rest slash := .inl hslash.2
    rw [vacant?_walk_refused hhere hup hrefused, vacant?_walk_refused hhere hup hrefused]
  | case5 links here slash name rest hhere hup hslash hlong =>
    have hrefused : Refused name rest slash := .inr hlong
    rw [vacant?_walk_refused hhere hup hrefused, vacant?_walk_refused hhere hup hrefused]
  | case6 links here slash name rest hhere hup hslash hlong location hentry
  | case7 links here slash name rest hhere hup hslash hlong location hentry
  | case9 links here slash name rest hhere hup hslash hlong location content hentry
  | case10 links here slash name rest hhere hup hslash hlong location content hentry =>
    exact hstop hhere hup (not_refused hslash hlong) (by rw [hentry]; rfl)
  | case8 links here slash name rest hhere hup hslash hlong location hentry ih =>
    have hdirectory : leadsOn (first.get? (here ++ [name])) = some .directory := by
      rw [hentry]; rfl
    rw [walk_directory hhere hup (not_refused hslash hlong) hdirectory,
      walk_directory hhere hup (not_refused hslash hlong) (hframe.entries _ ▸ hdirectory)]
    exact ih
  | case11 links here slash name rest hhere hup hslash hlong location target hentry hlook =>
    exact absurd hlook.1 (by decide)
  | case12 here slash name rest hhere hup hslash hlong location target hentry =>
    have hlink : leadsOn (first.get? (here ++ [name])) = some (.link target) := by
      rw [hentry]; rfl
    rw [walk_link hhere hup (not_refused hslash hlong) hlink,
      walk_link hhere hup (not_refused hslash hlong) (hframe.entries _ ▸ hlink)]
  | case13 here slash name rest hhere hup hslash hlong location target hentry _ links route ih =>
    have hlink : leadsOn (first.get? (here ++ [name])) = some (.link target) := by
      rw [hentry]; rfl
    rw [walk_link hhere hup (not_refused hslash hlong) hlink,
      walk_link hhere hup (not_refused hslash hlong) (hframe.entries _ ▸ hlink)]
    exact ih

theorem target?_congr {first second : Disk} (hframe : SameFrame first second) (path : Path) :
    first.target? path = second.target? path := by
  have hroute : first.route path = second.route path := by rw [route, route, hframe.workDir]
  rw [target?, target?, locate, locate, hroute]
  cases second.route path with
  | error error => rfl
  | ok found => exact vacant?_walk_congr hframe _ _ _ _

/-! ### Writing one file after another -/

/-- The disk after a write, which is the disk before it when the write is refused. -/
def put (disk : Disk) (write : Path × List UInt8) : Disk :=
  (disk.writeBytes write.1 write.2).toOption.getD disk

/-- The disk after several writes, one after another. -/
def putAll (disk : Disk) (writes : List (Path × List UInt8)) : Disk :=
  writes.foldl put disk

theorem get?_put {disk : Disk} {write : Path × List UInt8} (location : Location) :
    (disk.put write).get? location
      = if disk.target? write.1 = some location then some (.file write.2)
        else disk.get? location := by
  rw [put]
  cases htarget : disk.target? write.1 with
  | none =>
    obtain ⟨error, hwrite⟩ := exists_error_of_target? htarget write.2
    rw [hwrite, if_neg (by simp)]
    rfl
  | some found =>
    rw [writeBytes_of_target? htarget]
    refine (get?_set (leadsOn_of_target? htarget).1 location).trans ?_
    simp only [Option.some.injEq, eq_comm]

theorem sameFrame_put (disk : Disk) (write : Path × List UInt8) :
    SameFrame disk (disk.put write) := by
  constructor
  · rw [put]
    cases htarget : disk.target? write.1 with
    | none =>
      obtain ⟨error, hwrite⟩ := exists_error_of_target? htarget write.2
      rw [hwrite]
      rfl
    | some found =>
      rw [writeBytes_of_target? htarget]
      rfl
  · intro location
    rw [get?_put]
    split
    · next htarget => exact (leadsOn_of_target? htarget).2
    · rfl

/-- The places that some writes go to. -/
def targets (disk : Disk) (writes : List (Path × List UInt8)) : List Location :=
  writes.filterMap fun write => disk.target? write.1

theorem targets_congr {first second : Disk} (hframe : SameFrame first second)
    (writes : List (Path × List UInt8)) : first.targets writes = second.targets writes := by
  simp only [targets, target?_congr hframe]

theorem targets_cons_of_some {disk : Disk} {write : Path × List UInt8} {location : Location}
    {writes : List (Path × List UInt8)} (htarget : disk.target? write.1 = some location) :
    disk.targets (write :: writes) = location :: disk.targets writes := by
  simp only [targets, List.filterMap_cons, htarget]

theorem mem_targets {disk : Disk} {writes : List (Path × List UInt8)}
    {write : Path × List UInt8} {location : Location} (hwrite : write ∈ writes)
    (htarget : disk.target? write.1 = some location) : location ∈ disk.targets writes :=
  List.mem_filterMap.mpr ⟨write, hwrite, htarget⟩

/-- Writes leave alone what they do not go to. -/
theorem get?_putAll_of_notMem {writes : List (Path × List UInt8)} {location : Location} :
    ∀ {disk : Disk}, location ∉ disk.targets writes →
      (disk.putAll writes).get? location = disk.get? location := by
  induction writes with
  | nil => intro disk _; rfl
  | cons write writes ih =>
    intro disk hnot
    have hothers : location ∉ (disk.put write).targets writes := by
      rw [← targets_congr (sameFrame_put disk write)]
      intro hmem
      obtain ⟨other, hother, htarget⟩ := List.mem_filterMap.mp hmem
      exact hnot (mem_targets (List.mem_cons_of_mem _ hother) htarget)
    refine (ih hothers).trans ?_
    rw [get?_put, if_neg]
    exact fun htarget => hnot (mem_targets List.mem_cons_self htarget)

/-- Where no two writes go to the same place, each of them can be found there in the end. -/
theorem get?_putAll_of_mem {writes : List (Path × List UInt8)} {write : Path × List UInt8}
    {location : Location} (hwrite : write ∈ writes) :
    ∀ {disk : Disk}, (disk.targets writes).Nodup → disk.target? write.1 = some location →
      (disk.putAll writes).get? location = some (.file write.2) := by
  induction writes with
  | nil => cases hwrite
  | cons first writes ih =>
    intro disk hapart htarget
    have hframe := sameFrame_put disk first
    rcases List.mem_cons.mp hwrite with rfl | hwrite
    · have hnot : location ∉ (disk.put write).targets writes := by
        rw [← targets_congr hframe]
        rw [targets_cons_of_some htarget] at hapart
        exact (List.nodup_cons.mp hapart).1
      refine (get?_putAll_of_notMem hnot).trans ?_
      rw [get?_put, if_pos htarget]
    · refine ih hwrite ?_ (target?_congr hframe write.1 ▸ htarget)
      rw [← targets_congr hframe]
      exact hapart.sublist ((List.sublist_cons_self first writes).filterMap _)

/-- The order of writes that go to different places makes no difference. -/
theorem get?_putAll_of_perm {disk : Disk} {writes order : List (Path × List UInt8)}
    (hapart : (disk.targets writes).Nodup) (hperm : order.Perm writes) (location : Location) :
    (disk.putAll order).get? location = (disk.putAll writes).get? location := by
  have htargets : (disk.targets order).Perm (disk.targets writes) := hperm.filterMap _
  by_cases hmem : location ∈ disk.targets writes
  · obtain ⟨write, hwrite, htarget⟩ := List.mem_filterMap.mp hmem
    rw [get?_putAll_of_mem hwrite hapart htarget,
      get?_putAll_of_mem (hperm.mem_iff.mpr hwrite) (htargets.nodup_iff.mpr hapart) htarget]
  · rw [get?_putAll_of_notMem hmem, get?_putAll_of_notMem (mt htargets.mem_iff.mp hmem)]

end SiteTree.Disk

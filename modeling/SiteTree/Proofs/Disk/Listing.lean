import SiteTree.Proofs.Disk.WellFormed

/-!
# What is listed below a directory

All entries below a directory are listed, each once, and a directory comes before what it holds.

* `WellFormed.mem_listing_iff` — what is listed is what is there.
* `pairwise_listing` — nothing is listed before a directory that it is in.
-/

namespace SiteTree.Disk

variable {disk : Disk} {location : Location} {entry : Entry}

/-! ### The order -/

theorem isListedBefore_append (front rest : List Nat) (a : Nat) :
    isListedBefore (front ++ a :: rest) front = false := by
  induction front with
  | nil => rfl
  | cons b front ih => rwa [List.cons_append, isListedBefore, if_pos rfl]

theorem isListedBefore_total (first second : List Nat) :
    (isListedBefore first second || isListedBefore second first) = true := by
  fun_induction isListedBefore first second with
  | case1 => rfl
  | case2 => rfl
  | case3 a as bs ih => rwa [isListedBefore, if_pos rfl]
  | case4 a as b bs hne =>
    rw [isListedBefore, if_neg (Ne.symm hne), Bool.or_eq_true, decide_eq_true_eq, decide_eq_true_eq]
    exact Nat.le_total a b

theorem isListedBefore_trans {first second third : List Nat} (hfirst : isListedBefore first second)
    (hsecond : isListedBefore second third) : isListedBefore first third = true := by
  induction first generalizing second third with
  | nil => rfl
  | cons a first ih =>
    cases second with
    | nil => cases hfirst
    | cons b second =>
      cases third with
      | nil => cases hsecond
      | cons c third =>
        rw [isListedBefore] at hfirst hsecond ⊢
        split at hfirst
        · next hab =>
          split at hsecond
          · next hbc =>
            rw [if_pos (hab.trans hbc)]
            exact ih hfirst hsecond
          · next hbc => rwa [if_neg (hab ▸ hbc), hab]
        · next hab =>
          have hle := of_decide_eq_true hfirst
          split at hsecond
          · next hbc => rwa [← hbc, if_neg hab]
          · next hbc =>
            have hle' := of_decide_eq_true hsecond
            rw [if_neg (by omega)]
            exact decide_eq_true (by omega)

/-- On the way to what is below a location, the location comes first. -/
theorem exists_ages_append (disk : Disk) (front : Location) (name : String) (more : Location) :
    ∃ a rest, disk.ages (front ++ name :: more) = disk.ages front ++ a :: rest := by
  have hfront : ∀ i ∈ List.range front.length,
      disk.age ((front ++ name :: more).take (i + 1)) = disk.age (front.take (i + 1)) := by
    intro i hi
    rw [List.take_append_of_le_length (List.mem_range.mp hi)]
  have hlength : (front ++ name :: more).length = front.length + (more.length + 1) := by simp
  simp only [ages]
  rw [hlength, List.range_add, List.map_append, List.map_congr_left hfront, List.range_succ_eq_map,
    List.map_cons, List.map_cons]
  exact ⟨_, _, rfl⟩

/-- Nothing is listed before a directory that it is in. -/
theorem pairwise_below (disk : Disk) (location : Location) :
    (disk.below location).Pairwise fun first second =>
      ¬ (second.1 <+: first.1 ∧ second.1 ≠ first.1) := by
  rw [below]
  generalize disk.entries.filter (fun e => location.isPrefixOf e.1 && e.1 != location) = inside
  have htrans : ∀ a b c : List Nat × Location × Entry, isListedBefore a.1 b.1 →
      isListedBefore b.1 c.1 → isListedBefore a.1 c.1 :=
    fun _ _ _ => isListedBefore_trans
  have hsorted := List.pairwise_mergeSort htrans (fun a b => isListedBefore_total a.1 b.1)
    (inside.map fun e => (disk.ages e.1, e))
  have haged : ∀ a ∈ (inside.map fun e => (disk.ages e.1, e)).mergeSort
      (fun a b => isListedBefore a.1 b.1), a.1 = disk.ages a.2.1 := by
    intro a ha
    obtain ⟨e, -, rfl⟩ := List.mem_map.mp ((List.mergeSort_perm _ _).mem_iff.mp ha)
    rfl
  refine List.pairwise_map.mpr (hsorted.imp_of_mem fun {a b} ha hb hle hbelow => ?_)
  obtain ⟨⟨rest, hrest⟩, hne⟩ := hbelow
  rw [haged a ha, haged b hb, ← hrest] at hle
  cases rest with
  | nil => exact hne (by simpa using hrest)
  | cons name more =>
    obtain ⟨first, others, hages⟩ := exists_ages_append disk b.2.1 name more
    rw [hages, isListedBefore_append] at hle
    cases hle

/-! ### Listings -/

/-- The entries below a directory, by the names that lead to them from there. -/
def listing (disk : Disk) (location : Location) : List (Location × Entry) :=
  (disk.below location).map fun e => (e.1.drop location.length, e.2)

theorem mem_below_iff {e : Location × Entry} :
    e ∈ disk.below location ↔ e ∈ disk.entries ∧ location <+: e.1 ∧ e.1 ≠ location := by
  rw [(disk.perm_below location).mem_iff, List.mem_filter, Bool.and_eq_true,
    List.isPrefixOf_iff_prefix, bne_iff_ne]

theorem append_drop_of_mem_below {e : Location × Entry} (h : e ∈ disk.below location) :
    location ++ e.1.drop location.length = e.1 := by
  obtain ⟨-, ⟨rest, hrest⟩, -⟩ := mem_below_iff.mp h
  rw [← hrest, List.drop_left]

/-- Nothing is listed before a directory that it is in. -/
theorem pairwise_listing (disk : Disk) (location : Location) :
    (disk.listing location).Pairwise fun first second =>
      ¬ (second.1 <+: first.1 ∧ second.1 ≠ first.1) := by
  refine List.pairwise_map.mpr ((disk.pairwise_below location).imp_of_mem ?_)
  rintro first second hfirst hsecond hbefore ⟨hwithin, hne⟩
  refine hbefore ⟨?_, fun heq => hne (by rw [heq])⟩
  rw [← append_drop_of_mem_below hfirst, ← append_drop_of_mem_below hsecond]
  exact (List.prefix_append_right_inj _).mpr hwithin

namespace WellFormed

variable (hdisk : disk.WellFormed)

include hdisk

theorem mem_listing_iff {relative : Location} :
    (relative, entry) ∈ disk.listing location
      ↔ relative ≠ [] ∧ disk.get? (location ++ relative) = some entry := by
  constructor
  · intro hmem
    obtain ⟨⟨found, other⟩, hbelow, heq⟩ := List.mem_map.mp hmem
    have hfound : location ++ relative = found := by
      rw [← (Prod.mk.inj heq).1]
      exact append_drop_of_mem_below hbelow
    obtain rfl : other = entry := (Prod.mk.inj heq).2
    obtain ⟨hentry, hprefix, hne⟩ := mem_below_iff.mp hbelow
    dsimp only at hprefix hne
    subst hfound
    have hrelative : relative ≠ [] := by simpa using hne
    exact ⟨hrelative, (hdisk.mem_entries_iff (by simp [hrelative])).mp hentry⟩
  · rintro ⟨hrelative, hentry⟩
    refine List.mem_map.mpr ⟨(location ++ relative, entry), mem_below_iff.mpr ⟨?_, ?_, ?_⟩, ?_⟩
    · exact mem_of_get? (by simp [hrelative]) hentry
    · exact List.prefix_append _ _
    · simpa using hrelative
    · rw [List.drop_left]

theorem nodup_listing : (disk.listing location).Nodup := by
  have hbelow : ((disk.below location).map Prod.fst).Nodup :=
    ((disk.perm_below location).map Prod.fst).nodup_iff.mpr
      (hdisk.nodup.sublist ((List.filter_sublist).map Prod.fst))
  refine List.Nodup.map_on ?_ (List.Nodup.of_map _ hbelow)
  intro first hfirst second hsecond heq
  obtain ⟨hdrop, hentry⟩ := Prod.mk.inj heq
  refine Prod.ext ?_ hentry
  rw [← append_drop_of_mem_below hfirst, hdrop, append_drop_of_mem_below hsecond]

end WellFormed

end SiteTree.Disk

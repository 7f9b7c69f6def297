import SiteTree.Proofs.Component.Resolution
import Mathlib.Logic.Relation

/-!
# The order of imports

What a mount embeds is visited depth first, each mount before its own imports. Where the same
component is met again, neither it nor what it embeds is visited once more.

* `Mount.firstMet_append` — mounts that wait for their turn are visited one after the other.
* `Mount.mem_keysAfter_of_embeds` — nothing that is embedded is left out.
* `Mount.firstMet_eq_firsts` — what is visited are the first occurrences in the order of the tree
  with all repetitions.
-/

namespace SiteTree.Mount

open Relation (ReflTransGen)

variable {follows : Mount → Bool}

/-! ### Trees of imports -/

/-- The first mount embeds the second, by an import that is followed. -/
def Embeds (follows : Mount → Bool) (mount other : Mount) : Prop :=
  other ∈ mount.imports.filter follows

mutual

/-- A mount and all that it embeds, with all repetitions, each before what it embeds itself. -/
def unfolded (follows : Mount → Bool) : Mount → List Mount
  | mk declaration overrides imports children =>
    mk declaration overrides imports children :: unfoldedImports follows imports

def unfoldedImports (follows : Mount → Bool) : List Mount → List Mount
  | [] => []
  | mount :: mounts =>
    if follows mount then mount.unfolded follows ++ unfoldedImports follows mounts
    else unfoldedImports follows mounts

end

theorem unfoldedImports_eq (mounts : List Mount) :
    unfoldedImports follows mounts = (mounts.filter follows).flatMap (unfolded follows) := by
  induction mounts with
  | nil => rfl
  | cons mount mounts ih =>
    rw [unfoldedImports]
    cases hfollows : follows mount with
    | false => simpa [hfollows] using ih
    | true => simp [hfollows, ih]

theorem unfolded_eq (mount : Mount) :
    mount.unfolded follows
      = mount :: (mount.imports.filter follows).flatMap (unfolded follows) := by
  cases mount with
  | mk declaration overrides imports children => rw [unfolded, unfoldedImports_eq, Mount.imports]

theorem self_mem_unfolded (mount : Mount) : mount ∈ mount.unfolded follows := by
  rw [unfolded_eq]
  exact List.mem_cons_self

theorem mem_unfolded_of_embeds {mount other inner : Mount} (h : mount.Embeds follows other)
    (hinner : inner ∈ other.unfolded follows) : inner ∈ mount.unfolded follows := by
  rw [unfolded_eq]
  exact List.mem_cons_of_mem _ (List.mem_flatMap.mpr ⟨other, h, hinner⟩)

mutual

theorem embeds_of_mem_unfolded {inner : Mount} : ∀ mount : Mount,
    inner ∈ mount.unfolded follows → ReflTransGen (Embeds follows) mount inner
  | mk declaration overrides imports children, h => by
    rw [unfolded] at h
    rcases List.mem_cons.mp h with rfl | h
    · exact .refl
    · obtain ⟨other, hother, hembeds⟩ := embeds_of_mem_unfoldedImports imports h
      exact .head hother hembeds

theorem embeds_of_mem_unfoldedImports {inner : Mount} : ∀ mounts : List Mount,
    inner ∈ unfoldedImports follows mounts →
    ∃ other ∈ mounts.filter follows, ReflTransGen (Embeds follows) other inner
  | [], h => nomatch h
  | mount :: mounts, h => by
    rw [unfoldedImports] at h
    split at h
    · next hfollows =>
      rw [List.filter_cons_of_pos hfollows]
      rcases List.mem_append.mp h with h | h
      · exact ⟨mount, List.mem_cons_self, embeds_of_mem_unfolded mount h⟩
      · obtain ⟨other, hother, hembeds⟩ := embeds_of_mem_unfoldedImports mounts h
        exact ⟨other, List.mem_cons_of_mem _ hother, hembeds⟩
    · next hfollows =>
      rw [List.filter_cons_of_neg hfollows]
      exact embeds_of_mem_unfoldedImports mounts h

end

theorem mem_unfolded_iff {mount inner : Mount} :
    inner ∈ mount.unfolded follows ↔ ReflTransGen (Embeds follows) mount inner := by
  refine ⟨embeds_of_mem_unfolded mount, fun h => ?_⟩
  induction h using ReflTransGen.head_induction_on with
  | refl => exact self_mem_unfolded inner
  | head hembeds _ ih => exact mem_unfolded_of_embeds hembeds ih

/-- What a mount embeds is smaller than the mount. -/
theorem length_unfolded_lt {mount other : Mount} (h : mount.Embeds follows other) :
    (other.unfolded follows).length < (mount.unfolded follows).length := by
  have hsub : (other.unfolded follows).Sublist
      ((mount.imports.filter follows).flatMap (unfolded follows)) := by
    rw [List.flatMap_def]
    exact List.sublist_flatten_of_mem (List.mem_map_of_mem h)
  rw [unfolded_eq mount, List.length_cons]
  exact Nat.lt_succ_of_le hsub.length_le

theorem length_unfolded_le {mount inner : Mount} (h : inner ∈ mount.unfolded follows) :
    (inner.unfolded follows).length ≤ (mount.unfolded follows).length := by
  induction mem_unfolded_iff.mp h with
  | refl => exact Nat.le_refl _
  | tail hpath hstep ih =>
    exact Nat.le_trans (Nat.le_of_lt (length_unfolded_lt hstep)) (ih (mem_unfolded_iff.mpr hpath))

theorem Reaches.embeds {root mount other : Mount} (h : root.Reaches mount)
    (hembeds : ReflTransGen (Embeds follows) mount other) : root.Reaches other := by
  induction hembeds with
  | refl => exact h
  | tail _ hstep ih => exact ih.imported (List.mem_of_mem_filter hstep)

/-! ### The order of visits -/

/-- The mounts that are visited when some wait for their turn and the components of some keys have
been met: each that has not been met yet, followed by what it embeds. -/
def firstMet (follows : Mount → Bool) : (waiting : List Mount) → (met : List Key) → List Mount
  | [], _ => []
  | mount :: waiting, met =>
    if mount.key ∈ met then firstMet follows waiting met
    else mount :: firstMet follows (mount.imports.filter follows ++ waiting) (mount.key :: met)
termination_by waiting => (waiting.flatMap (unfolded follows)).length
decreasing_by
  all_goals
    simp only [List.flatMap_cons, List.flatMap_append, List.length_append, unfolded_eq mount,
      List.length_cons]
    omega

/-- The keys met when the visits are over, the latest first. -/
def keysAfter (follows : Mount → Bool) (waiting : List Mount) (met : List Key) : List Key :=
  ((firstMet follows waiting met).map key).reverse ++ met

variable {waiting others : List Mount} {met : List Key} {mount : Mount}

@[simp]
theorem firstMet_nil : firstMet follows [] met = [] := by
  rw [firstMet]

theorem firstMet_cons_of_mem (h : mount.key ∈ met) :
    firstMet follows (mount :: waiting) met = firstMet follows waiting met := by
  rw [firstMet, if_pos h]

theorem firstMet_cons_of_notMem (h : mount.key ∉ met) :
    firstMet follows (mount :: waiting) met
      = mount :: firstMet follows (mount.imports.filter follows ++ waiting) (mount.key :: met) := by
  rw [firstMet, if_neg h]

@[simp]
theorem keysAfter_nil : keysAfter follows [] met = met := by
  simp [keysAfter]

theorem keysAfter_cons_of_mem (h : mount.key ∈ met) :
    keysAfter follows (mount :: waiting) met = keysAfter follows waiting met := by
  rw [keysAfter, firstMet_cons_of_mem h, keysAfter]

theorem keysAfter_cons_of_notMem (h : mount.key ∉ met) :
    keysAfter follows (mount :: waiting) met
      = keysAfter follows (mount.imports.filter follows ++ waiting) (mount.key :: met) := by
  rw [keysAfter, firstMet_cons_of_notMem h, keysAfter]
  simp

theorem mem_keysAfter_of_mem {key : Key} (h : key ∈ met) : key ∈ keysAfter follows waiting met :=
  List.mem_append_right _ h

theorem firstMet_append :
    firstMet follows (waiting ++ others) met
      = firstMet follows waiting met
        ++ firstMet follows others (keysAfter follows waiting met) := by
  fun_induction firstMet follows waiting met with
  | case1 met => simp
  | case2 mount waiting met hmem ih =>
    rw [List.cons_append, firstMet_cons_of_mem hmem, ih, keysAfter_cons_of_mem hmem]
  | case3 mount waiting met hmem ih =>
    rw [List.cons_append, firstMet_cons_of_notMem hmem, ← List.append_assoc, ih,
      keysAfter_cons_of_notMem hmem, List.cons_append]

theorem keysAfter_append :
    keysAfter follows (waiting ++ others) met
      = keysAfter follows others (keysAfter follows waiting met) := by
  rw [keysAfter, firstMet_append, keysAfter]
  simp [keysAfter]

/-- Only what is embedded is visited. -/
theorem mem_unfolded_of_mem_firstMet (h : mount ∈ firstMet follows waiting met) :
    ∃ first ∈ waiting, mount ∈ first.unfolded follows := by
  fun_induction firstMet follows waiting met with
  | case1 met => cases h
  | case2 first waiting met hmem ih =>
    obtain ⟨other, hother, hmount⟩ := ih h
    exact ⟨other, List.mem_cons_of_mem _ hother, hmount⟩
  | case3 first waiting met hmem ih =>
    rcases List.mem_cons.mp h with rfl | h
    · exact ⟨mount, List.mem_cons_self, self_mem_unfolded mount⟩
    · obtain ⟨other, hother, hmount⟩ := ih h
      rcases List.mem_append.mp hother with himport | hwaiting
      · exact ⟨first, List.mem_cons_self, mem_unfolded_of_embeds himport hmount⟩
      · exact ⟨other, List.mem_cons_of_mem _ hwaiting, hmount⟩

/-- No component is visited twice, and none that had been met before. -/
theorem nodup_keysAfter (h : met.Nodup) : (keysAfter follows waiting met).Nodup := by
  fun_induction firstMet follows waiting met with
  | case1 met => simpa using h
  | case2 mount waiting met hmem ih =>
    rw [keysAfter_cons_of_mem hmem]
    exact ih h
  | case3 mount waiting met hmem ih =>
    rw [keysAfter_cons_of_notMem hmem]
    exact ih (List.nodup_cons.mpr ⟨hmem, h⟩)

theorem nodup_firstMet (follows : Mount → Bool) (waiting : List Mount) :
    ((firstMet follows waiting []).map key).Nodup := by
  have hkeys : (keysAfter follows waiting []).Nodup := nodup_keysAfter List.nodup_nil
  rw [keysAfter, List.append_nil, List.nodup_reverse] at hkeys
  exact hkeys

/-! ### Keys that identify components -/

/-- Mounts of the tree that share a key are the same component. -/
def KeysIdentify (root : Mount) : Prop :=
  ∀ first second, root.Reaches first → root.Reaches second → first.key = second.key →
    first.SameComponent second

/-- With a component, all that it embeds directly has been met. -/
def ClosedUnderImports (root : Mount) (follows : Mount → Bool) (met : List Key) : Prop :=
  ∀ mount other, root.Reaches mount → mount.Embeds follows other → mount.key ∈ met →
    other.key ∈ met

theorem closedUnderImports_nil {root : Mount} : root.ClosedUnderImports follows [] :=
  fun _ _ _ _ h => nomatch h

theorem mem_of_closed {root : Mount} (hclosed : root.ClosedUnderImports follows met)
    {inner : Mount} (hreaches : root.Reaches mount)
    (hembeds : ReflTransGen (Embeds follows) mount inner) (hmount : mount.key ∈ met) :
    inner.key ∈ met := by
  induction hembeds with
  | refl => exact hmount
  | tail hpath hstep ih => exact hclosed _ _ (hreaches.embeds hpath) hstep ih

/-- After the visits no import of what was met is missing, if before only those were that wait for
their turn. -/
theorem closed_keysAfter {root : Mount} (hkeys : root.KeysIdentify)
    (hwaiting : ∀ first ∈ waiting, root.Reaches first)
    (hopen : ∀ mount other, root.Reaches mount → mount.Embeds follows other → mount.key ∈ met →
      other.key ∈ met ∨ other.key ∈ waiting.map key) :
    root.ClosedUnderImports follows (keysAfter follows waiting met) := by
  fun_induction firstMet follows waiting met with
  | case1 met =>
    rw [keysAfter_nil]
    intro mount other hreaches hembeds hmount
    simpa using hopen mount other hreaches hembeds hmount
  | case2 first waiting met hmem ih =>
    rw [keysAfter_cons_of_mem hmem]
    refine ih (fun other hother => hwaiting other (List.mem_cons_of_mem _ hother)) ?_
    intro mount other hreaches hembeds hmount
    rcases hopen mount other hreaches hembeds hmount with hmet | hwait
    · exact .inl hmet
    · rcases List.mem_cons.mp hwait with heq | hwait
      · exact .inl (heq ▸ hmem)
      · exact .inr hwait
  | case3 first waiting met hmem ih =>
    have hfirst := hwaiting first List.mem_cons_self
    rw [keysAfter_cons_of_notMem hmem]
    refine ih ?_ ?_
    · intro other hother
      rcases List.mem_append.mp hother with himport | hwait
      · exact hfirst.imported (List.mem_of_mem_filter himport)
      · exact hwaiting other (List.mem_cons_of_mem _ hwait)
    · intro mount other hreaches hembeds hmount
      rw [List.map_append, List.mem_append]
      rcases List.mem_cons.mp hmount with heq | hmount
      · -- The imports of the component that was met just now are those of `first`.
        have hsame := hkeys mount first hreaches hfirst heq
        rw [Embeds, hsame.imports] at hembeds
        exact .inr (.inl (List.mem_map_of_mem hembeds))
      · rcases hopen mount other hreaches hembeds hmount with hmet | hwait
        · exact .inl (List.mem_cons_of_mem _ hmet)
        · rcases List.mem_cons.mp hwait with heq | hwait
          · exact .inl (heq ▸ List.mem_cons_self)
          · exact .inr (.inr hwait)

theorem mem_keysAfter_of_waiting (h : mount ∈ waiting) :
    mount.key ∈ keysAfter follows waiting met := by
  fun_induction firstMet follows waiting met with
  | case1 met => cases h
  | case2 first waiting met hmem ih =>
    rw [keysAfter_cons_of_mem hmem]
    rcases List.mem_cons.mp h with rfl | h
    · exact mem_keysAfter_of_mem hmem
    · exact ih h
  | case3 first waiting met hmem ih =>
    rw [keysAfter_cons_of_notMem hmem]
    rcases List.mem_cons.mp h with rfl | h
    · exact mem_keysAfter_of_mem List.mem_cons_self
    · exact ih (List.mem_append_right _ h)

/-- Everything that a mount embeds has been met when the visits that begin with it are over. -/
theorem mem_keysAfter_of_embeds {root inner : Mount} (hkeys : root.KeysIdentify)
    (hwaiting : ∀ first ∈ waiting, root.Reaches first)
    (hmet : root.ClosedUnderImports follows met) (hmount : mount ∈ waiting)
    (hembeds : ReflTransGen (Embeds follows) mount inner) :
    inner.key ∈ keysAfter follows waiting met := by
  have hclosed : root.ClosedUnderImports follows (keysAfter follows waiting met) :=
    closed_keysAfter hkeys hwaiting fun first other hreaches hstep hfirst =>
      .inl (hmet first other hreaches hstep hfirst)
  exact mem_of_closed hclosed (hwaiting mount hmount) hembeds (mem_keysAfter_of_waiting hmount)

/-! ### First occurrences -/

/-- The mounts whose component has not come up before. -/
def firsts : List Mount → (met : List Key) → List Mount
  | [], _ => []
  | mount :: mounts, met =>
    if mount.key ∈ met then firsts mounts met else mount :: firsts mounts (mount.key :: met)

theorem firsts_append_of_mem {mounts rest : List Mount} (h : ∀ mount ∈ mounts, mount.key ∈ met) :
    firsts (mounts ++ rest) met = firsts rest met := by
  induction mounts with
  | nil => rfl
  | cons mount mounts ih =>
    rw [List.cons_append, firsts, if_pos (h mount List.mem_cons_self)]
    exact ih fun other hother => h other (List.mem_cons_of_mem _ hother)

theorem keys_unfolded_of_sameComponent (follows : Mount → Bool) {first second : Mount}
    (h : first.SameComponent second) :
    (first.unfolded follows).map key = (second.unfolded follows).map key := by
  rw [unfolded_eq, unfolded_eq, List.map_cons, List.map_cons, h.imports, key, key, h.declaration]

/-- No component embeds itself. -/
theorem key_ne_of_embeds {root other inner : Mount} (hkeys : root.KeysIdentify)
    (hreaches : root.Reaches mount) (hembeds : mount.Embeds follows other)
    (hinner : inner ∈ other.unfolded follows) : inner.key ≠ mount.key := by
  intro heq
  have hother : root.Reaches other := hreaches.imported (List.mem_of_mem_filter hembeds)
  have hsame := hkeys _ _ (hother.embeds (mem_unfolded_iff.mp hinner)) hreaches heq
  have hsize := congrArg List.length (keys_unfolded_of_sameComponent follows hsame)
  have hbelow := length_unfolded_le hinner
  have habove := length_unfolded_lt hembeds
  simp only [List.length_map] at hsize
  omega

/-- Whatever has been met of what is embedded by the mounts that wait, at the time it is their turn,
all that it embeds has been met with it. -/
def Settled (follows : Mount → Bool) : List Mount → List Key → Prop
  | [], _ => True
  | mount :: waiting, met =>
    (∀ inner ∈ mount.unfolded follows, inner.key ∈ met →
        ∀ below ∈ inner.unfolded follows, below.key ∈ met) ∧
      Settled follows waiting ((mount.unfolded follows).map key ++ met)

theorem Settled.congr {other : List Key} (h : Settled follows waiting met)
    (hsame : ∀ key, key ∈ met ↔ key ∈ other) : Settled follows waiting other := by
  induction waiting generalizing met other with
  | nil => trivial
  | cons mount waiting ih =>
    obtain ⟨hmount, hrest⟩ := h
    refine ⟨fun inner hinner hmet below hbelow => ?_, ih hrest fun key => ?_⟩
    · exact (hsame _).mp (hmount inner hinner ((hsame _).mpr hmet) below hbelow)
    · simp only [List.mem_append, hsame key]

theorem settled_append :
    Settled follows (waiting ++ others) met
      ↔ Settled follows waiting met ∧
        Settled follows others ((waiting.flatMap (unfolded follows)).map key ++ met) := by
  induction waiting generalizing met with
  | nil => simp [Settled]
  | cons mount waiting ih =>
    rw [List.cons_append, Settled, ih, Settled, and_assoc]
    refine and_congr_right fun _ => and_congr_right fun _ => ?_
    constructor
    · intro h
      exact h.congr fun key => by simp [or_left_comm]
    · intro h
      exact h.congr fun key => by simp [or_left_comm]

theorem settled_of_closed {root : Mount} (hkeys : root.KeysIdentify)
    (hwaiting : ∀ first ∈ waiting, root.Reaches first)
    (hclosed : ∀ first ∈ waiting, ∀ inner ∈ first.unfolded follows, inner.key ∈ met →
      ∀ below ∈ inner.unfolded follows, below.key ∈ met) :
    Settled follows waiting met := by
  induction waiting generalizing met with
  | nil => trivial
  | cons mount waiting ih =>
    refine ⟨hclosed mount List.mem_cons_self,
      ih (fun first hfirst => hwaiting first (List.mem_cons_of_mem _ hfirst)) ?_⟩
    intro first hfirst inner hinner hmet below hbelow
    rcases List.mem_append.mp hmet with hmet | hmet
    · -- A component embedded by `mount` is met again, and all that it embeds is embedded there.
      obtain ⟨before, hbefore, heq⟩ := List.mem_map.mp hmet
      have hreaches : root.Reaches inner :=
        (hwaiting first (List.mem_cons_of_mem _ hfirst)).embeds (mem_unfolded_iff.mp hinner)
      have hreaches' : root.Reaches before :=
        (hwaiting mount List.mem_cons_self).embeds (mem_unfolded_iff.mp hbefore)
      have hkeysBelow := keys_unfolded_of_sameComponent follows
        (hkeys before inner hreaches' hreaches heq)
      have hmem : below.key ∈ (before.unfolded follows).map key :=
        hkeysBelow ▸ List.mem_map_of_mem hbelow
      obtain ⟨same, hsame, hkey⟩ := List.mem_map.mp hmem
      refine List.mem_append_left _ (hkey ▸ List.mem_map_of_mem ?_)
      exact mem_unfolded_iff.mpr ((mem_unfolded_iff.mp hbefore).trans (mem_unfolded_iff.mp hsame))
    · exact List.mem_append_right _ (hclosed first (List.mem_cons_of_mem _ hfirst) inner hinner hmet
        below hbelow)

/-- A mount that is visited leaves its imports settled. -/
theorem Settled.visit {root : Mount} (hkeys : root.KeysIdentify) (hreaches : root.Reaches mount)
    (h : Settled follows (mount :: waiting) met) :
    Settled follows (mount.imports.filter follows ++ waiting) (mount.key :: met) := by
  obtain ⟨hmount, hrest⟩ := h
  rw [settled_append]
  constructor
  · refine settled_of_closed hkeys
      (fun other hother => hreaches.imported (List.mem_of_mem_filter hother)) ?_
    intro other hother inner hinner hmet below hbelow
    rcases List.mem_cons.mp hmet with heq | hmet
    · exact absurd heq (key_ne_of_embeds hkeys hreaches hother hinner)
    · exact List.mem_cons_of_mem _
        (hmount inner (mem_unfolded_of_embeds hother hinner) hmet below hbelow)
  · rw [unfolded_eq] at hrest
    exact hrest.congr fun key => by simp [or_left_comm]

theorem firstMet_eq_firsts_of_settled {root : Mount} (hkeys : root.KeysIdentify)
    (hwaiting : ∀ first ∈ waiting, root.Reaches first) (h : Settled follows waiting met) :
    firstMet follows waiting met = firsts (waiting.flatMap (unfolded follows)) met := by
  fun_induction firstMet follows waiting met with
  | case1 met => rfl
  | case2 mount waiting met hmem ih =>
    have hbelow : ∀ inner ∈ mount.unfolded follows, inner.key ∈ met :=
      h.1 mount (self_mem_unfolded mount) hmem
    rw [List.flatMap_cons, firsts_append_of_mem hbelow]
    refine ih (fun other hother => hwaiting other (List.mem_cons_of_mem _ hother)) (h.2.congr ?_)
    intro key
    rw [List.mem_append, or_iff_right_iff_imp, List.mem_map]
    rintro ⟨inner, hinner, rfl⟩
    exact hbelow inner hinner
  | case3 mount waiting met hmem ih =>
    have hreaches := hwaiting mount List.mem_cons_self
    rw [List.flatMap_cons, unfolded_eq, List.cons_append, firsts, if_neg hmem,
      ← List.flatMap_append]
    refine congrArg _ (ih ?_ (h.visit hkeys hreaches))
    intro other hother
    rcases List.mem_append.mp hother with himport | hwait
    · exact hreaches.imported (List.mem_of_mem_filter himport)
    · exact hwaiting other (List.mem_cons_of_mem _ hwait)

/-- Where keys identify components, the mounts that are visited are the first occurrences of their
components among all that is embedded. -/
theorem firstMet_eq_firsts {root : Mount} (hkeys : root.KeysIdentify)
    (hreaches : root.Reaches mount) :
    firstMet follows [mount] [] = firsts (mount.unfolded follows) [] := by
  have hsettled : Settled follows [mount] [] := ⟨nofun, trivial⟩
  rw [firstMet_eq_firsts_of_settled hkeys ?_ hsettled, List.flatMap_singleton]
  intro first hfirst
  rw [List.mem_singleton.mp hfirst]
  exact hreaches

end SiteTree.Mount

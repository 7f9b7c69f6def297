import SiteTree.Proofs.ScopeId
import Mathlib.Data.List.Perm.Subperm
import Mathlib.Data.Nat.Find

/-!
# Proposals that are free

Where proposals depend on the key and the attempt alone, a new key gets its first proposal that no
other key holds. There is one among as many attempts as there are identifiers held and one more, if
these proposals differ, and the generator is asked no further. Where the first proposals differ from
key to key, every key gets its first one, whatever the order of the calls.

* `Registry.firstFree_eq_some_iff` — the search ends at the first free proposal, and what it asks.
* `Registry.exists_isFirstFree` — more proposals than identifiers held: one of them is free.
* `Registry.FirstProposals.assignEach?` — calls whose first proposals differ.
* `Registry.first_free_bounded_order_independent` — all calls on a new registry.
-/

namespace SiteTree

variable {σ : Type}

namespace Generator

/-- What is proposed depends on the key and the attempt alone. -/
def Proposes (generator : Generator σ) (propose : Key → Nat → ScopeId) : Prop :=
  ∀ state key attempt, (generator.generate state key attempt).1 = propose key attempt

theorem proposes_ofFunction (propose : Key → Nat → ScopeId) :
    (ofFunction propose).Proposes propose :=
  fun _ _ _ => rfl

/-- The state in which a generator is left that is asked for a key at some attempts in turn. -/
def asked (generator : Generator σ) (key : Key) (attempts : List Nat) (state : σ) : σ :=
  attempts.foldl (fun state attempt => (generator.generate state key attempt).2) state

end Generator

namespace Registry

variable {registry later : Registry σ} {propose : Key → Nat → ScopeId} {key : Key} {id : ScopeId}
  {attempt : Nat}

/-- The first attempt for the key whose proposal is not taken. -/
structure IsFirstFree (registry : Registry σ) (propose : Key → Nat → ScopeId) (key : Key)
    (attempt : Nat) : Prop where
  free : propose key attempt ∉ registry.taken
  taken : ∀ earlier < attempt, propose key earlier ∈ registry.taken

/-! ### The search -/

/-- The search ends at the first free proposal that it comes to, and the generator has been asked
for this one and all before it. -/
theorem firstFree_eq_some_iff (hpropose : registry.generator.Proposes propose) {fuel first : Nat}
    {state after : σ} :
    registry.firstFree key fuel first state = some (id, after) ↔
      ∃ more < fuel, propose key (first + more) ∉ registry.taken ∧
        (∀ earlier < more, propose key (first + earlier) ∈ registry.taken) ∧
        id = propose key (first + more) ∧
        after = registry.generator.asked key (List.range' first (more + 1)) state := by
  induction fuel generalizing first state with
  | zero => simp [firstFree]
  | succ fuel ih =>
    rw [firstFree]
    dsimp only
    rw [hpropose]
    by_cases htaken : propose key first ∈ registry.taken
    · rw [if_pos htaken, ih]
      constructor
      · rintro ⟨more, hmore, hfree, hearlier, hid, hafter⟩
        have hnext : first + 1 + more = first + (more + 1) := by omega
        rw [hnext] at hfree hid
        refine ⟨more + 1, by omega, hfree, fun earlier hlt => ?_, hid, ?_⟩
        · cases earlier with
          | zero => exact htaken
          | succ earlier =>
            have := hearlier earlier (by omega)
            rwa [Nat.add_assoc, Nat.add_comm 1] at this
        · rw [hafter, List.range'_succ (n := more + 1)]
          rfl
      · rintro ⟨more, hmore, hfree, hearlier, hid, hafter⟩
        cases more with
        | zero => exact absurd htaken hfree
        | succ more =>
          have hnext : first + (more + 1) = first + 1 + more := by omega
          rw [hnext] at hfree hid
          rw [List.range'_succ (n := more + 1)] at hafter
          refine ⟨more, by omega, hfree, fun earlier hlt => ?_, hid, hafter⟩
          have := hearlier (earlier + 1) (by omega)
          rwa [Nat.add_assoc, Nat.add_comm 1]
    · rw [if_neg htaken]
      constructor
      · intro h
        cases h
        exact ⟨0, by omega, htaken, fun _ hlt => absurd hlt (Nat.not_lt_zero _),
          rfl, rfl⟩
      · rintro ⟨more, -, -, hearlier, hid, hafter⟩
        cases more with
        | zero =>
          rw [hid, hafter]
          rfl
        | succ more => exact absurd (hearlier 0 (by omega)) htaken

/-- A new key gets an identifier exactly if one of its proposals is free: the first free one. -/
theorem assign?_eq_some_iff (hpropose : registry.generator.Proposes propose)
    (hnew : registry.assigned.lookup key = none) :
    registry.assign? key = some (id, later) ↔
      ∃ attempt < maxAttempts, registry.IsFirstFree propose key attempt ∧
        id = propose key attempt ∧
        later = { registry with
          state := registry.generator.asked key (List.range (attempt + 1)) registry.state
          assigned := registry.assigned ++ [(key, id)]
          taken := id :: registry.taken } := by
  rw [assign?, hnew]
  constructor
  · intro h
    obtain ⟨⟨found, after⟩, hfree, heq⟩ := Option.map_eq_some_iff.mp h
    obtain ⟨attempt, hlt, hfound, hearlier, hid, hafter⟩ := (firstFree_eq_some_iff hpropose).mp hfree
    rw [Nat.zero_add] at hfound hid
    simp only [Nat.zero_add] at hearlier
    cases heq
    exact ⟨attempt, hlt, ⟨hfound, hearlier⟩, hid, by rw [hafter, ← List.range_eq_range']⟩
  · rintro ⟨attempt, hlt, hfirst, rfl, rfl⟩
    have hfree : registry.firstFree key maxAttempts 0 registry.state
        = some (propose key attempt,
          registry.generator.asked key (List.range (attempt + 1)) registry.state) := by
      refine (firstFree_eq_some_iff hpropose).mpr ⟨attempt, hlt, ?_, fun earlier hearlier => ?_, ?_, ?_⟩
      · rw [Nat.zero_add]
        exact hfirst.free
      · rw [Nat.zero_add]
        exact hfirst.taken earlier hearlier
      · rw [Nat.zero_add]
      · rw [List.range_eq_range']
    rw [hfree]
    rfl

/-- The first free attempt is the first one whose proposal no key holds. -/
theorem Consistent.isFirstFree_iff (hregistry : registry.Consistent) :
    registry.IsFirstFree propose key attempt ↔
      (∀ other, registry.assigned.lookup other ≠ some (propose key attempt)) ∧
        ∀ earlier < attempt, ∃ other, registry.assigned.lookup other = some (propose key earlier) := by
  have hfree : propose key attempt ∉ registry.taken ↔
      ∀ other, registry.assigned.lookup other ≠ some (propose key attempt) := by
    rw [hregistry.mem_taken_iff, not_exists]
  refine ⟨fun h => ⟨hfree.mp h.free, fun earlier hlt => ?_⟩, fun h => ⟨hfree.mpr h.1, fun earlier hlt => ?_⟩⟩
  · exact hregistry.mem_taken_iff.mp (h.taken earlier hlt)
  · exact hregistry.mem_taken_iff.mpr (h.2 earlier hlt)

/-- Among more different proposals than there are identifiers taken, one is free. -/
theorem exists_isFirstFree
    (hapart : ((List.range (registry.taken.length + 1)).map (propose key)).Nodup) :
    ∃ attempt ≤ registry.taken.length, registry.IsFirstFree propose key attempt := by
  classical
  have hfree : ∃ attempt, attempt ≤ registry.taken.length ∧ propose key attempt ∉ registry.taken := by
    by_contra hnone
    push Not at hnone
    have hsub : (List.range (registry.taken.length + 1)).map (propose key) ⊆ registry.taken := by
      intro proposal hproposal
      obtain ⟨attempt, hattempt, rfl⟩ := List.mem_map.mp hproposal
      exact hnone attempt (Nat.lt_succ_iff.mp (List.mem_range.mp hattempt))
    have hlength := (List.subperm_of_subset hapart hsub).length_le
    rw [List.length_map, List.length_range] at hlength
    omega
  obtain ⟨hle, hnot⟩ := Nat.find_spec hfree
  refine ⟨Nat.find hfree, hle, hnot, fun earlier hearlier => ?_⟩
  by_contra hother
  exact Nat.find_min hfree hearlier ⟨by omega, hother⟩

/-! ### Runs of calls -/

section Run

variable {keys : List Key} {ids : List ScopeId}

theorem generator_assign? (h : registry.assign? key = some (id, later)) :
    later.generator = registry.generator := by
  rw [assign?] at h
  split at h
  · cases h
    rfl
  · obtain ⟨_, -, heq⟩ := Option.map_eq_some_iff.mp h
    cases heq
    rfl

theorem generator_assignEach? (h : registry.assignEach? keys = some (ids, later)) :
    later.generator = registry.generator := by
  induction keys generalizing registry ids with
  | nil =>
    cases h
    rfl
  | cons first keys ih =>
    obtain ⟨id, middle, others, hfirst, hothers, -⟩ := assignEach?_cons_eq_some h
    exact (ih hothers).trans (generator_assign? hfirst)

theorem lookup_eq_none_of_assignEach? {generator : Generator σ} {state : σ}
    (h : (new generator state).assignEach? keys = some (ids, registry)) (hkey : key ∉ keys) :
    registry.assigned.lookup key = none := by
  by_contra hsome
  have hmem := (isSome_lookup_iff_of_assignEach? h key).mp (Option.isSome_iff_ne_none.mpr hsome)
  simp [new, hkey] at hmem

/-- Every call takes one identifier for each key that it notes. -/
theorem length_taken_of_assignEach?
    (h : registry.assignEach? keys = some (ids, later))
    (hlength : registry.taken.length = registry.assigned.length) :
    later.taken.length = later.assigned.length := by
  induction keys generalizing registry ids with
  | nil =>
    cases h
    exact hlength
  | cons first keys ih =>
    obtain ⟨id, middle, others, hfirst, hothers, -⟩ := assignEach?_cons_eq_some h
    refine ih hothers ?_
    rcases assign?_cases hfirst with ⟨-, rfl⟩ | ⟨-, -, hassigned, htaken⟩
    · exact hlength
    · rw [hassigned, htaken, List.length_append, List.length_cons, hlength]
      rfl

end Run

/-! ### First proposals that differ -/

/-- Every key that holds something is one of those given and holds its first proposal. -/
structure FirstProposals (registry : Registry σ) (propose : Key → Nat → ScopeId)
    (given : List Key) : Prop where
  consistent : registry.Consistent
  proposes : registry.generator.Proposes propose
  held : ∀ key id, registry.assigned.lookup key = some id → key ∈ given ∧ id = propose key 0

namespace FirstProposals

variable {keys : List Key} (hregistry : registry.FirstProposals propose keys)
  (hapart : ∀ first ∈ keys, ∀ second ∈ keys, propose first 0 = propose second 0 → first = second)

include hregistry hapart

/-- A call for one of the keys is answered with its first proposal. -/
theorem assign? (hkey : key ∈ keys) :
    ∃ later, registry.assign? key = some (propose key 0, later) ∧ later.FirstProposals propose keys := by
  have hgives : ∀ {id : ScopeId} {later : Registry σ}, registry.assign? key = some (id, later) →
      id = propose key 0 → later.FirstProposals propose keys := by
    intro id later hassign hid
    refine ⟨hregistry.consistent.assign? hassign,
      generator_assign? hassign ▸ hregistry.proposes, fun other found hfound => ?_⟩
    obtain ⟨hheld, hothers⟩ := lookup_of_assign? hassign
    by_cases hother : other = key
    · subst hother
      rw [hheld] at hfound
      exact ⟨hkey, (Option.some.inj hfound).symm.trans hid⟩
    · rw [hothers other hother] at hfound
      exact hregistry.held other found hfound
  cases hlookup : registry.assigned.lookup key with
  | some id =>
    have hid := (hregistry.held key id hlookup).2
    have hassign : registry.assign? key = some (id, registry) := by rw [Registry.assign?, hlookup]
    exact ⟨registry, hid ▸ hassign, hregistry⟩
  | none =>
    -- Whoever holds the proposal has it as the first one, so it is the same key.
    have hfree : propose key 0 ∉ registry.taken := by
      intro hmem
      obtain ⟨other, hother⟩ := hregistry.consistent.mem_taken_iff.mp hmem
      obtain ⟨hmem, hid⟩ := hregistry.held other _ hother
      rw [← hapart key hkey other hmem hid, hlookup] at hother
      cases hother
    have hfirst : registry.IsFirstFree propose key 0 :=
      ⟨hfree, fun _ hlt => absurd hlt (Nat.not_lt_zero _)⟩
    have hassign := (assign?_eq_some_iff hregistry.proposes hlookup).mpr
      ⟨0, by decide, hfirst, rfl, rfl⟩
    exact ⟨_, hassign, hgives hassign rfl⟩

theorem assignEach? {calls : List Key} (hcalls : ∀ key ∈ calls, key ∈ keys) :
    ∃ ids later, registry.assignEach? calls = some (ids, later) ∧ later.FirstProposals propose keys := by
  induction calls generalizing registry with
  | nil => exact ⟨[], registry, rfl, hregistry⟩
  | cons key calls ih =>
    obtain ⟨middle, hfirst, hmiddle⟩ := hregistry.assign? hapart (hcalls key List.mem_cons_self)
    obtain ⟨ids, later, hothers, hlater⟩ :=
      ih hmiddle fun other hother => hcalls other (List.mem_cons_of_mem _ hother)
    refine ⟨propose key 0 :: ids, later, ?_, hlater⟩
    rw [Registry.assignEach?, hfirst]
    simp [hothers]

end FirstProposals

/-- On a new registry every key of some calls gets its first proposal, if those differ. -/
theorem exists_assignEach? {generator : Generator σ} (hpropose : generator.Proposes propose)
    (state : σ) {keys : List Key}
    (hapart : ∀ first ∈ keys, ∀ second ∈ keys, propose first 0 = propose second 0 → first = second) :
    ∃ ids registry, (new generator state).assignEach? keys = some (ids, registry) ∧
      ∀ key, registry.assigned.lookup key = if key ∈ keys then some (propose key 0) else none := by
  have hnew : (new generator state).FirstProposals propose keys :=
    ⟨consistent_new generator state, hpropose, fun key id h => by cases h⟩
  obtain ⟨ids, registry, hrun, hregistry⟩ := hnew.assignEach? hapart fun _ hkey => hkey
  refine ⟨ids, registry, hrun, fun key => ?_⟩
  split
  · next hkey =>
    have hsome := (isSome_lookup_iff_of_assignEach? hrun key).mpr (.inr hkey)
    obtain ⟨id, hid⟩ := Option.isSome_iff_exists.mp hsome
    rw [hid, (hregistry.held key id hid).2]
  · next hkey => exact lookup_eq_none_of_assignEach? hrun hkey

/-! ### All calls on a new registry -/

/-- The proposals depend on the key and the attempt alone. After any calls on a new registry, a key
that was not among them is answered exactly if one of its proposals is held by no key, with the first
such one; if the proposals at as many attempts as identifiers are held, and at one more, differ, it
is among them, and the generator has been asked for it and those before it only. Two runs of calls
for the same keys, whatever their order and however often each key comes up, leave every key with
the same identifier, if the first proposals for these keys differ. -/
theorem first_free_bounded_order_independent {generator : Generator σ}
    (hpropose : generator.Proposes propose) (state : σ) :
    (∀ (calls : List Key) (ids : List ScopeId) (registry : Registry σ),
      (new generator state).assignEach? calls = some (ids, registry) → ∀ key ∉ calls,
        (∀ id later, registry.assign? key = some (id, later) ↔
          ∃ attempt < maxAttempts,
            ((∀ other, registry.assigned.lookup other ≠ some (propose key attempt)) ∧
              ∀ earlier < attempt,
                ∃ other, registry.assigned.lookup other = some (propose key earlier)) ∧
            id = propose key attempt ∧
            later = { registry with
              state := generator.asked key (List.range (attempt + 1)) registry.state
              assigned := registry.assigned ++ [(key, id)]
              taken := id :: registry.taken }) ∧
        (registry.assigned.length < maxAttempts →
          ((List.range (registry.assigned.length + 1)).map (propose key)).Nodup →
          ∃ attempt ≤ registry.assigned.length, ∃ later,
            registry.assign? key = some (propose key attempt, later) ∧
            later.state = generator.asked key (List.range (attempt + 1)) registry.state)) ∧
    ∀ first second : List Key, (∀ key, key ∈ first ↔ key ∈ second) →
      (∀ one ∈ first, ∀ other ∈ first, propose one 0 = propose other 0 → one = other) →
      ∃ ids registry others registry',
        (new generator state).assignEach? first = some (ids, registry) ∧
        (new generator state).assignEach? second = some (others, registry') ∧
        ∀ key, registry.assigned.lookup key = registry'.assigned.lookup key ∧
          registry.assigned.lookup key = if key ∈ first then some (propose key 0) else none := by
  refine ⟨fun calls ids registry hrun key hkey => ?_, fun first second hsame hapart => ?_⟩
  · have hregistry : registry.Consistent := (consistent_new generator state).assignEach? hrun
    have hgenerator : registry.generator = generator := generator_assignEach? hrun
    have hnew : registry.assigned.lookup key = none := lookup_eq_none_of_assignEach? hrun hkey
    have hcount : registry.taken.length = registry.assigned.length :=
      length_taken_of_assignEach? hrun rfl
    have hassign : ∀ id later, registry.assign? key = some (id, later) ↔ _ := fun _ _ =>
      assign?_eq_some_iff (hgenerator ▸ hpropose) hnew
    refine ⟨fun id later => ?_, fun hlength hdistinct => ?_⟩
    · rw [hassign, hgenerator]
      simp only [hregistry.isFirstFree_iff]
    · rw [← hcount] at hlength hdistinct ⊢
      obtain ⟨attempt, hle, hfirst⟩ := exists_isFirstFree hdistinct
      refine ⟨attempt, hle, _, (hassign _ _).mpr ⟨attempt, by omega, hfirst, rfl, rfl⟩, ?_⟩
      rw [hgenerator]
  · have hother : ∀ one ∈ second, ∀ other ∈ second, propose one 0 = propose other 0 → one = other :=
      fun one hone other hother => hapart one ((hsame one).mpr hone) other ((hsame other).mpr hother)
    obtain ⟨ids, registry, hfirst, hheld⟩ := exists_assignEach? hpropose state hapart
    obtain ⟨others, registry', hsecond, hheld'⟩ := exists_assignEach? hpropose state hother
    refine ⟨ids, registry, others, registry', hfirst, hsecond, fun key => ⟨?_, hheld key⟩⟩
    rw [hheld, hheld']
    simp only [hsame]

/-- A generator that proposes the same for all keys, and counts how often it is asked. -/
def counting : Generator Nat :=
  ⟨fun asked _ attempt => (⟨"c" ++ toString attempt⟩, asked + 1)⟩

/-- A generator whose first proposals differ from key to key. -/
def namesake : Generator Unit :=
  Generator.ofFunction fun key _ => ⟨key.text⟩

/-- Hashed identifiers are proposed by key and attempt alone. Where two identifiers are held, a third
key with the same proposals gets one of the first three, and the generator is asked no further; keys
with proposals of their own get the same in either order. -/
theorem third_of_counting :
    hashedIds.Proposes hashedId ∧
    (∃ registry, (new counting 0).assignEach? [⟨"a@x"⟩, ⟨"b@x"⟩, ⟨"a@x"⟩]
        = some ([⟨"c0"⟩, ⟨"c1"⟩, ⟨"c0"⟩], registry) ∧
      registry.assigned.length = 2 ∧ registry.state = 3 ∧
      ∃ attempt ≤ 2, ∃ later, registry.assign? ⟨"c@x"⟩ = some (⟨"c" ++ toString attempt⟩, later) ∧
        later.state = 3 + (attempt + 1)) ∧
    ∃ ids registry others registry',
      (new namesake ()).assignEach? [⟨"a@x"⟩, ⟨"b@x"⟩] = some (ids, registry) ∧
      (new namesake ()).assignEach? [⟨"b@x"⟩, ⟨"a@x"⟩, ⟨"b@x"⟩] = some (others, registry') ∧
      ∀ key, registry.assigned.lookup key = registry'.assigned.lookup key := by
  have hcounting : counting.Proposes fun _ attempt => ⟨"c" ++ toString attempt⟩ := fun _ _ _ => rfl
  have hnamesake : namesake.Proposes fun key _ => ⟨key.text⟩ := Generator.proposes_ofFunction _
  have hrun : (new counting 0).assignEach? [⟨"a@x"⟩, ⟨"b@x"⟩, ⟨"a@x"⟩]
      = some ([⟨"c0"⟩, ⟨"c1"⟩, ⟨"c0"⟩],
        ⟨counting, 3, [(⟨"a@x"⟩, ⟨"c0"⟩), (⟨"b@x"⟩, ⟨"c1"⟩)], [⟨"c1"⟩, ⟨"c0"⟩]⟩) := rfl
  have hasked : ∀ attempts state, counting.asked ⟨"c@x"⟩ attempts state = state + attempts.length := by
    intro attempts
    induction attempts with
    | nil => exact fun _ => rfl
    | cons attempt attempts ih =>
      intro state
      rw [Generator.asked, List.foldl_cons, List.length_cons]
      exact (ih (state + 1)).trans (by omega)
  refine ⟨Generator.proposes_ofFunction hashedId, ⟨_, hrun, rfl, rfl, ?_⟩, ?_⟩
  · obtain ⟨attempt, hle, later, hassign, hstate⟩ :=
      ((first_free_bounded_order_independent hcounting 0).1 _ _ _ hrun ⟨"c@x"⟩ (by decide)).2
        (by decide) (by decide)
    refine ⟨attempt, hle, later, hassign, ?_⟩
    rw [hstate, hasked, List.length_range]
  · obtain ⟨ids, registry, others, registry', hfirst, hsecond, hheld⟩ :=
      (first_free_bounded_order_independent hnamesake ()).2 [⟨"a@x"⟩, ⟨"b@x"⟩]
        [⟨"b@x"⟩, ⟨"a@x"⟩, ⟨"b@x"⟩] (by intro key; simp; tauto) (by decide)
    exact ⟨ids, registry, others, registry', hfirst, hsecond, fun key => (hheld key).1⟩

end Registry

end SiteTree

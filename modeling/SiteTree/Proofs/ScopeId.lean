import SiteTree.Disk.Basic
import SiteTree.ScopeId
import Mathlib.Data.List.Nodup

/-!
# Identifiers given out by a registry

Whatever a generator proposes, a registry gives every key one identifier for good and no
identifier to two keys.

* `Registry.Consistent.assign?` — what the registry notes as given out and what it notes as taken
  agree after every assignment.
* `Registry.ids_unique_and_stable` — the identifiers of all keys after any calls on a new registry.
-/

namespace SiteTree.Registry

variable {σ : Type} {registry later : Registry σ} {key : Key} {id : ScopeId}

/-! ### Calls that follow one another -/

/-- The answers to calls for some keys in turn, and the registry after them; `none` when one of
the calls gives no answer. -/
def assignEach? (registry : Registry σ) : List Key → Option (List ScopeId × Registry σ)
  | [] => some ([], registry)
  | key :: keys => do
    let (id, middle) ← registry.assign? key
    let (ids, later) ← middle.assignEach? keys
    return (id :: ids, later)

/-- Calls that all give an answer: the first one does, and so do the others after it. -/
theorem assignEach?_cons_eq_some {keys : List Key} {ids : List ScopeId}
    (h : registry.assignEach? (key :: keys) = some (ids, later)) :
    ∃ id middle others, registry.assign? key = some (id, middle) ∧
      middle.assignEach? keys = some (others, later) ∧ ids = id :: others := by
  rw [assignEach?] at h
  obtain ⟨⟨id, middle⟩, hfirst, h⟩ := Option.bind_eq_some_iff.mp h
  obtain ⟨⟨others, last⟩, hothers, h⟩ := Option.bind_eq_some_iff.mp h
  cases h
  exact ⟨id, middle, others, hfirst, hothers, rfl⟩

/-! ### One call -/

/-- A proposal that is accepted was not taken. -/
theorem notMem_taken_of_firstFree {fuel attempt : Nat} {state after : σ}
    (h : registry.firstFree key fuel attempt state = some (id, after)) : id ∉ registry.taken := by
  induction fuel generalizing attempt state with
  | zero => cases h
  | succ fuel ih =>
    rw [firstFree] at h
    generalize registry.generator.generate state key attempt = proposal at h
    obtain ⟨proposed, next⟩ := proposal
    dsimp only at h
    by_cases htaken : proposed ∈ registry.taken
    · rw [if_pos htaken] at h
      exact ih h
    · rw [if_neg htaken] at h
      cases h
      exact htaken

/-- All that a call can do: repeat what the key has already, or give it something that was not
taken and note both. -/
theorem assign?_cases (h : registry.assign? key = some (id, later)) :
    (registry.assigned.lookup key = some id ∧ later = registry) ∨
      (registry.assigned.lookup key = none ∧ id ∉ registry.taken ∧
        later.assigned = registry.assigned ++ [(key, id)] ∧
        later.taken = id :: registry.taken) := by
  rw [assign?] at h
  cases hlookup : registry.assigned.lookup key with
  | some held =>
    rw [hlookup] at h
    cases h
    exact .inl ⟨rfl, rfl⟩
  | none =>
    rw [hlookup] at h
    obtain ⟨⟨found, state⟩, hfree, heq⟩ := Option.map_eq_some_iff.mp h
    cases heq
    exact .inr ⟨rfl, notMem_taken_of_firstFree hfree, rfl, rfl⟩

/-- The key of a call holds the answer, and other keys hold what they held. -/
theorem lookup_of_assign? (h : registry.assign? key = some (id, later)) :
    later.assigned.lookup key = some id ∧
      ∀ other, other ≠ key → later.assigned.lookup other = registry.assigned.lookup other := by
  rcases assign?_cases h with ⟨hheld, rfl⟩ | ⟨hnew, -, hassigned, -⟩
  · exact ⟨hheld, fun _ _ => rfl⟩
  · rw [hassigned]
    constructor
    · rw [List.lookup_append, hnew]
      exact List.lookup_cons_self
    · intro other hother
      rw [List.lookup_append, Disk.lookup_cons_ite, if_neg (by simpa using hother)]
      simp

/-- What a key holds it keeps. -/
theorem lookup_assign?_of_lookup (h : registry.assign? key = some (id, later)) {other : Key}
    {held : ScopeId} (hheld : registry.assigned.lookup other = some held) :
    later.assigned.lookup other = some held := by
  rcases assign?_cases h with ⟨-, rfl⟩ | ⟨-, -, hassigned, -⟩
  · exact hheld
  · rw [hassigned, List.lookup_append, hheld]
    rfl

/-! ### What all calls keep -/

/-- No key is noted twice, no identifier is, and what is taken is what some key holds. -/
structure Consistent (registry : Registry σ) : Prop where
  keys : (registry.assigned.map Prod.fst).Nodup
  ids : (registry.assigned.map Prod.snd).Nodup
  taken : ∀ id, id ∈ registry.taken ↔ id ∈ registry.assigned.map Prod.snd

theorem consistent_new (generator : Generator σ) (state : σ) : (new generator state).Consistent where
  keys := List.nodup_nil
  ids := List.nodup_nil
  taken _ := Iff.rfl

theorem mem_of_lookup (h : registry.assigned.lookup key = some id) :
    (key, id) ∈ registry.assigned := by
  obtain ⟨before, after, hassigned, -⟩ := List.lookup_eq_some_iff.mp h
  rw [hassigned]
  exact List.mem_append_right _ List.mem_cons_self

theorem notMem_keys_of_lookup (h : registry.assigned.lookup key = none) :
    key ∉ registry.assigned.map Prod.fst := by
  intro hmem
  obtain ⟨⟨other, id⟩, hentry, hother⟩ := List.mem_map.mp hmem
  exact absurd hother.symm (bne_iff_ne.mp (List.lookup_eq_none_iff.mp h _ hentry))

/-- The registry stays consistent: what is new is noted on both sides, and nothing else changes. -/
theorem Consistent.assign? (hregistry : registry.Consistent)
    (h : registry.assign? key = some (id, later)) : later.Consistent := by
  rcases assign?_cases h with ⟨-, rfl⟩ | ⟨hnew, hfree, hassigned, htaken⟩
  · exact hregistry
  · have hkey : key ∉ registry.assigned.map Prod.fst := notMem_keys_of_lookup hnew
    have hid : id ∉ registry.assigned.map Prod.snd := by
      intro hmem
      exact hfree ((hregistry.taken id).mpr hmem)
    constructor
    · rw [hassigned, List.map_append, List.map_singleton, ← List.concat_eq_append]
      exact hregistry.keys.concat hkey
    · rw [hassigned, List.map_append, List.map_singleton, ← List.concat_eq_append]
      exact hregistry.ids.concat hid
    · intro other
      rw [htaken, hassigned, List.map_append, List.mem_cons, List.mem_append,
        hregistry.taken other, List.map_singleton, List.mem_singleton]
      exact or_comm

/-- Two keys that hold the same identifier are one. -/
theorem Consistent.eq_of_lookup (hregistry : registry.Consistent) {first second : Key}
    (hfirst : registry.assigned.lookup first = some id)
    (hsecond : registry.assigned.lookup second = some id) : first = second := by
  have hentry := List.inj_on_of_nodup_map hregistry.ids (mem_of_lookup hfirst)
    (mem_of_lookup hsecond) rfl
  exact congrArg Prod.fst hentry

/-- What is taken is what the keys hold. -/
theorem Consistent.mem_taken_iff (hregistry : registry.Consistent) :
    id ∈ registry.taken ↔ ∃ key, registry.assigned.lookup key = some id := by
  rw [hregistry.taken id]
  constructor
  · intro hmem
    obtain ⟨⟨key, held⟩, hentry, hheld⟩ := List.mem_map.mp hmem
    cases hlookup : registry.assigned.lookup key with
    | none => exact absurd (List.mem_map_of_mem hentry) (notMem_keys_of_lookup hlookup)
    | some found =>
      have hsame := List.inj_on_of_nodup_map hregistry.keys (mem_of_lookup hlookup) hentry rfl
      refine ⟨key, hlookup.trans ?_⟩
      rw [← hheld, ← congrArg Prod.snd hsame]
  · rintro ⟨key, hlookup⟩
    exact List.mem_map_of_mem (mem_of_lookup hlookup)

/-! ### Runs of calls -/

section Run

variable {keys : List Key} {ids : List ScopeId}

theorem Consistent.assignEach? (hregistry : registry.Consistent)
    (h : registry.assignEach? keys = some (ids, later)) : later.Consistent := by
  induction keys generalizing registry ids with
  | nil =>
    cases h
    exact hregistry
  | cons key keys ih =>
    obtain ⟨id, middle, others, hfirst, hothers, -⟩ := assignEach?_cons_eq_some h
    exact ih (hregistry.assign? hfirst) hothers

theorem lookup_assignEach?_of_lookup (h : registry.assignEach? keys = some (ids, later))
    (hheld : registry.assigned.lookup key = some id) :
    later.assigned.lookup key = some id := by
  induction keys generalizing registry ids with
  | nil =>
    cases h
    exact hheld
  | cons first keys ih =>
    obtain ⟨_, middle, others, hfirst, hothers, -⟩ := assignEach?_cons_eq_some h
    exact ih hothers (lookup_assign?_of_lookup hfirst hheld)

theorem length_of_assignEach? (h : registry.assignEach? keys = some (ids, later)) :
    ids.length = keys.length := by
  induction keys generalizing registry ids with
  | nil =>
    cases h
    rfl
  | cons key keys ih =>
    obtain ⟨id, middle, others, -, hothers, rfl⟩ := assignEach?_cons_eq_some h
    rw [List.length_cons, List.length_cons, ih hothers]

/-- Every call answers what its key holds at the end. -/
theorem getElem?_of_assignEach? (h : registry.assignEach? keys = some (ids, later)) {n : Nat}
    (hkey : keys[n]? = some key) : ids[n]? = later.assigned.lookup key := by
  induction keys generalizing registry ids n with
  | nil => simp at hkey
  | cons first keys ih =>
    obtain ⟨id, middle, others, hfirst, hothers, rfl⟩ := assignEach?_cons_eq_some h
    cases n with
    | zero =>
      obtain rfl : first = key := by simpa using hkey
      exact (lookup_assignEach?_of_lookup hothers (lookup_of_assign? hfirst).1).symm
    | succ n =>
      rw [List.getElem?_cons_succ] at hkey ⊢
      exact ih hothers hkey

/-- The keys that hold something are those that held it before and those of the calls. -/
theorem isSome_lookup_iff_of_assignEach? (h : registry.assignEach? keys = some (ids, later))
    (key : Key) :
    (later.assigned.lookup key).isSome
      ↔ (registry.assigned.lookup key).isSome ∨ key ∈ keys := by
  induction keys generalizing registry ids with
  | nil =>
    cases h
    simp
  | cons first keys ih =>
    obtain ⟨id, middle, others, hfirst, hothers, -⟩ := assignEach?_cons_eq_some h
    obtain ⟨hheld, hsame⟩ := lookup_of_assign? hfirst
    rw [ih hothers, List.mem_cons]
    by_cases hkey : key = first
    · simp [hkey, hheld]
    · simp [hkey, hsame key hkey]

end Run

/-- After any calls on a new registry, whatever its generator proposes, no two keys hold the same
identifier; every call has answered what the first call for its key did, which is what the key
holds; what is taken is what some key holds; and the keys that hold something, each noted once, are
those of the calls. -/
theorem ids_unique_and_stable {generator : Generator σ} {state : σ} {keys : List Key}
    {ids : List ScopeId} (h : (new generator state).assignEach? keys = some (ids, later)) :
    (∀ first second id, later.assigned.lookup first = some id →
      later.assigned.lookup second = some id → first = second) ∧
    (ids.length = keys.length ∧ ∀ (n : Nat) (key : Key), keys[n]? = some key →
      ids[n]? = ids[keys.idxOf key]? ∧ ids[n]? = later.assigned.lookup key) ∧
    (∀ id, id ∈ later.taken ↔ ∃ key, later.assigned.lookup key = some id) ∧
    (later.assigned.map Prod.fst).Nodup ∧
    ∀ key, (later.assigned.lookup key).isSome ↔ key ∈ keys := by
  have hlater : later.Consistent := (consistent_new generator state).assignEach? h
  refine ⟨fun _ _ _ => hlater.eq_of_lookup, ⟨length_of_assignEach? h, ?_⟩,
    fun _ => hlater.mem_taken_iff, hlater.keys, ?_⟩
  · intro n key hkey
    have hfirst : keys[keys.idxOf key]? = some key :=
      List.getElem?_idxOf (List.mem_of_getElem? hkey)
    have hanswer := getElem?_of_assignEach? h hkey
    exact ⟨hanswer.trans (getElem?_of_assignEach? h hfirst).symm, hanswer⟩
  · intro key
    rw [isSome_lookup_iff_of_assignEach? h key]
    simp [new]

/-- A generator whose proposals are the same for all keys. -/
def sameForAll : Generator Unit :=
  Generator.ofFunction fun _ attempt => ⟨"c" ++ toString attempt⟩

/-- Two keys with the same proposals, one of them asked for twice. -/
theorem colliding_ids :
    ∃ registry, (new sameForAll ()).assignEach? [⟨"a@x"⟩, ⟨"b@x"⟩, ⟨"a@x"⟩]
        = some ([⟨"c0"⟩, ⟨"c1"⟩, ⟨"c0"⟩], registry) ∧
      (∀ first second id, registry.assigned.lookup first = some id →
        registry.assigned.lookup second = some id → first = second) ∧
      ∀ id, id ∈ registry.taken ↔ ∃ key, registry.assigned.lookup key = some id := by
  have hrun : (new sameForAll ()).assignEach? [⟨"a@x"⟩, ⟨"b@x"⟩, ⟨"a@x"⟩]
      = some ([⟨"c0"⟩, ⟨"c1"⟩, ⟨"c0"⟩],
        ⟨sameForAll, (), [(⟨"a@x"⟩, ⟨"c0"⟩), (⟨"b@x"⟩, ⟨"c1"⟩)], [⟨"c1"⟩, ⟨"c0"⟩]⟩) := rfl
  obtain ⟨hunique, -, htaken, -⟩ := ids_unique_and_stable hrun
  exact ⟨_, hrun, hunique, htaken⟩

end SiteTree.Registry

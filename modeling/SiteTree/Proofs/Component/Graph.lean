import SiteTree.Proofs.Component.Resolution
import Mathlib.Data.List.Chain
import Mathlib.Logic.Relation

/-!
# The graph of components

A component leads to every component that it imports or has as a child. Resolving follows this
graph depth first, and what it refuses is exactly a graph that is no finite tree when it is
unfolded from the root.

* `Manifest.existsUnique_answers` — the search needs no bound on its depth to come to an end.
* `Manifest.keeps_build` — what the search builds is grounded, and its errors point at faults.
* `Manifest.resolve_isOk_iff` — a root is resolved exactly when it is declared, all that is
  referred to from there on is, and no cycle can be reached.
-/

namespace SiteTree.Manifest

open Relation (ReflTransGen TransGen)

variable {manifest : Manifest} {root : String}

/-! ### References -/

def Declared (manifest : Manifest) (key : String) : Prop :=
  (manifest.components.lookup key).isSome

/-- Does a component list another one among its imports or children? -/
def Refers (manifest : Manifest) (key other : String) : Prop :=
  ∃ table, manifest.components.lookup key = some table ∧
    ∃ reference ∈ table.imports ++ table.children, reference.key = other

theorem Refers.declared {key other : String} (h : manifest.Refers key other) :
    manifest.Declared key := by
  obtain ⟨table, htable, -⟩ := h
  exact Option.isSome_iff_exists.mpr ⟨table, htable⟩

/-- A component leads to the last one of a way, whichever of the others on the way it is. -/
theorem leads_of_isChain {stack : List String} {key other : String}
    (h : (stack ++ [key]).IsChain manifest.Refers) (hother : other ∈ stack) :
    TransGen manifest.Refers other key := by
  have htrans : (stack ++ [key]).IsChain (TransGen manifest.Refers) :=
    h.imp fun _ _ => TransGen.single
  obtain ⟨-, -, hpairs⟩ := List.pairwise_append.mp (List.isChain_iff_pairwise.mp htrans)
  exact hpairs other hother key (List.mem_singleton_self key)

/-- The component unfolds to a finite tree: it is declared, and so is all that it refers to, down
to components that refer to nothing. -/
inductive Grounded (manifest : Manifest) : String → Prop where
  | intro {key : String} : manifest.Declared key →
      (∀ other, manifest.Refers key other → Grounded manifest other) → Grounded manifest key

theorem Grounded.of_reaches {key other : String} (h : manifest.Grounded key)
    (hreaches : ReflTransGen manifest.Refers key other) : manifest.Grounded other := by
  induction hreaches with
  | refl => exact h
  | tail _ hrefers ih =>
    obtain ⟨-, hothers⟩ := ih
    exact hothers _ hrefers

theorem Grounded.acyclic {key : String} (h : manifest.Grounded key) :
    ¬ TransGen manifest.Refers key key := by
  induction h with
  | intro _ _ ih =>
    intro hcycle
    obtain ⟨next, hfirst, hback⟩ := TransGen.head'_iff.mp hcycle
    -- The cycle can be entered at its second component just as well.
    exact ih next hfirst (TransGen.tail' hback hfirst)

/-! ### The way to a component -/

/-- The components of the stack lead from the root to the key, each one to the next. -/
structure LeadsTo (manifest : Manifest) (root : String) (stack : List String) (key : String) :
    Prop where
  chain : (stack ++ [key]).IsChain manifest.Refers
  first : (stack ++ [key]).head? = some root
  nodup : stack.Nodup

namespace LeadsTo

variable {stack : List String} {key : String}

theorem nil (root : String) : manifest.LeadsTo root [] root :=
  ⟨List.isChain_singleton _, rfl, List.nodup_nil⟩

theorem reached (h : manifest.LeadsTo root stack key) :
    ReflTransGen manifest.Refers root key := by
  cases stack with
  | nil =>
    cases h.first
    exact .refl
  | cons first rest =>
    cases h.first
    exact (leads_of_isChain h.chain List.mem_cons_self).to_reflTransGen

/-- The way to a component is continued by the component itself. -/
theorem extend (h : manifest.LeadsTo root stack key) (hnew : key ∉ stack) {next : String}
    (hnext : manifest.Refers key next) : manifest.LeadsTo root (stack ++ [key]) next := by
  constructor
  · refine List.isChain_append.mpr ⟨h.chain, List.isChain_singleton next, ?_⟩
    intro last hlast other hother
    rw [List.getLast?_concat] at hlast
    cases hlast
    cases hother
    exact hnext
  · rw [List.head?_append, h.first]
    rfl
  · refine List.nodup_append.mpr ⟨h.nodup, List.nodup_singleton key, ?_⟩
    rintro other hother _ hkey rfl
    rw [List.mem_singleton.mp hkey] at hother
    exact hnew hother

end LeadsTo

/-! ### Faults -/

/-- What an error points at: a reference to something undeclared, or a cycle with its keys in
order, either of which can be reached from the root. -/
inductive Fault (manifest : Manifest) (root : String) : ManifestError → Prop where
  | unknown {key referencedBy : String} : ReflTransGen manifest.Refers root referencedBy →
      manifest.Refers referencedBy key → ¬ manifest.Declared key →
      Fault manifest root (.unknownComponent key referencedBy)
  | cycle {key : String} {others : List String} : ReflTransGen manifest.Refers root key →
      (key :: others ++ [key]).IsChain manifest.Refers → (key :: others).Nodup →
      Fault manifest root (.importCycle (key :: others ++ [key]))

/-- The cycle begins where the component was met first. -/
theorem cycleAt_append {key : String} {before : List String} (hfirst : key ∉ before)
    (others : List String) : cycleAt key (before ++ key :: others) = key :: others ++ [key] := by
  rw [cycleAt, List.dropWhile_append_of_pos fun other hother => ?_]
  · simp
  · exact bne_iff_ne.mpr fun heq => hfirst (heq ▸ hother)

/-- A component that is met again while it is being built is on a cycle. -/
theorem LeadsTo.fault {stack : List String} {key : String} (h : manifest.LeadsTo root stack key)
    (hkey : key ∈ stack) : manifest.Fault root (.importCycle (cycleAt key stack)) := by
  obtain ⟨before, others, rfl, hfirst⟩ := List.eq_append_cons_of_mem hkey
  rw [cycleAt_append hfirst]
  refine .cycle h.reached ?_ (h.nodup.sublist (List.suffix_append before _).sublist)
  have hchain := h.chain
  rw [List.append_assoc] at hchain
  exact hchain.right_of_append

/-- From the root on, every reference is to something declared and none closes a cycle. -/
structure Sound (manifest : Manifest) (root : String) : Prop where
  declared : ∀ key, ReflTransGen manifest.Refers root key →
    ∀ other, manifest.Refers key other → manifest.Declared other
  acyclic : ∀ key, ReflTransGen manifest.Refers root key → ¬ TransGen manifest.Refers key key

theorem Grounded.sound (h : manifest.Grounded root) : manifest.Sound root := by
  constructor
  · intro key hreaches other hrefers
    obtain ⟨-, hothers⟩ := h.of_reaches hreaches
    obtain ⟨hdeclared, -⟩ := hothers other hrefers
    exact hdeclared
  · intro key hreaches
    exact (h.of_reaches hreaches).acyclic

theorem Fault.not_sound {error : ManifestError} (h : manifest.Fault root error) :
    ¬ manifest.Sound root := by
  intro hsound
  cases h with
  | unknown hreaches hrefers hundeclared =>
    exact hundeclared (hsound.declared _ hreaches _ hrefers)
  | @cycle key others hreaches hchain _ =>
    exact hsound.acyclic key hreaches (leads_of_isChain hchain List.mem_cons_self)

/-! ### One call of the search -/

/-- How a call for the component of a key is answered, given the answers to the calls that it
makes in turn. -/
def call (manifest : Manifest) (answer : List String → String → String → Building Mount)
    (stack : List String) (referencedBy key : String) : Building Mount :=
  manifest.reuse referencedBy key fun table =>
    if key ∈ stack then throw (.importCycle (cycleAt key stack))
    else
      manifest.assemble key table fun reference => do
        return place reference (← answer (stack ++ [key]) key reference.key)

theorem build_succ (fuel : Nat) :
    manifest.build (fuel + 1) = manifest.call (manifest.build fuel) := by
  funext stack referencedBy key
  rw [build, call]

/-- Only the answers to calls from a declared component that is not on the stack matter. -/
theorem call_congr {answer other : List String → String → String → Building Mount}
    {stack : List String} {referencedBy key : String}
    (h : manifest.Declared key → key ∉ stack →
      ∀ next, answer (stack ++ [key]) key next = other (stack ++ [key]) key next) :
    manifest.call answer stack referencedBy key = manifest.call other stack referencedBy key := by
  rw [call, call, reuse, reuse]
  cases htable : manifest.components.lookup key with
  | none => rfl
  | some table =>
    by_cases hkey : key ∈ stack
    · simp only [if_pos hkey]
    · have hdeclared : manifest.Declared key := Option.isSome_iff_exists.mpr ⟨table, htable⟩
      simp only [if_neg hkey, h hdeclared hkey]

/-! ### The depth of the search -/

/-- The number of tables whose components are not on the stack. -/
def unopened (manifest : Manifest) (stack : List String) : Nat :=
  (manifest.components.filter fun entry => decide (entry.1 ∉ stack)).length

theorem unopened_nil : manifest.unopened [] = manifest.components.length := by
  simp [unopened]

/-- A component that is put on the stack is one table less. -/
theorem unopened_concat_lt {stack : List String} {key : String} (hdeclared : manifest.Declared key)
    (hnew : key ∉ stack) : manifest.unopened (stack ++ [key]) < manifest.unopened stack := by
  obtain ⟨table, htable⟩ := Option.isSome_iff_exists.mp hdeclared
  obtain ⟨before, after, hentries, -⟩ := List.lookup_eq_some_iff.mp htable
  have hfilter : (manifest.components.filter fun entry => decide (entry.1 ∉ stack ++ [key]))
      = (manifest.components.filter fun entry => decide (entry.1 ∉ stack)).filter
        fun entry => decide (entry.1 ≠ key) := by
    rw [List.filter_filter]
    refine List.filter_congr fun entry _ => ?_
    simp [not_or, and_comm]
  rw [unopened, hfilter, unopened, List.length_filter_lt_length_iff_exists]
  exact ⟨(key, table), by simp [hentries, hnew], by simp⟩

/-- How deep the search may go makes no difference where it may go deeper than there are tables
left. -/
theorem build_eq_build {fuel other : Nat} {stack : List String} (referencedBy key : String)
    (hfuel : manifest.unopened stack < fuel) (hother : manifest.unopened stack < other) :
    manifest.build fuel stack referencedBy key = manifest.build other stack referencedBy key := by
  induction fuel generalizing other stack referencedBy key with
  | zero => exact absurd hfuel (Nat.not_lt_zero _)
  | succ fuel ih =>
    obtain ⟨other, rfl⟩ := Nat.exists_eq_succ_of_ne_zero (Nat.ne_zero_of_lt hother)
    rw [build_succ, Nat.succ_eq_add_one, build_succ]
    refine call_congr fun hdeclared hnew next => ?_
    have hless := unopened_concat_lt hdeclared hnew
    exact ih key next (by omega) (by omega)

/-- All calls are answered from the answers to the calls that they make. -/
def Answers (manifest : Manifest)
    (search : List String → String → String → Building Mount) : Prop :=
  ∀ stack referencedBy key,
    search stack referencedBy key = manifest.call search stack referencedBy key

theorem build_eq_of_answers {search : List String → String → String → Building Mount}
    (h : manifest.Answers search) {fuel : Nat} {stack : List String} (referencedBy key : String)
    (hfuel : manifest.unopened stack < fuel) :
    manifest.build fuel stack referencedBy key = search stack referencedBy key := by
  induction fuel generalizing stack referencedBy key with
  | zero => exact absurd hfuel (Nat.not_lt_zero _)
  | succ fuel ih =>
    rw [build_succ, h]
    refine call_congr fun hdeclared hnew next => ?_
    have hless := unopened_concat_lt hdeclared hnew
    exact ih key next (by omega)

/-- The search comes to an end without a bound on its depth: exactly one function answers every
call from the answers to the calls that it makes. -/
theorem existsUnique_answers (manifest : Manifest) : ∃! search, manifest.Answers search := by
  refine ⟨fun stack => manifest.build (manifest.unopened stack + 1) stack, ?_, ?_⟩
  · intro stack referencedBy key
    dsimp only
    rw [build_succ]
    refine call_congr fun hdeclared hnew next => ?_
    have hless := unopened_concat_lt hdeclared hnew
    exact build_eq_build key next hless (Nat.lt_succ_self _)
  · intro search hsearch
    funext stack referencedBy key
    exact (build_eq_of_answers hsearch referencedBy key (Nat.lt_succ_self _)).symm

/-! ### What the search answers -/

/-- Every component that is built is grounded. -/
def AllGrounded (manifest : Manifest) (built : Built) : Prop :=
  ∀ key component, built.lookup key = some component → manifest.Grounded key

/-- Where all that is built is grounded, the step leaves it so and shows that something holds, or
ends with an error that points at a fault. -/
def Keeps {α : Type} (manifest : Manifest) (root : String) (step : Building α) (shown : Prop) :
    Prop :=
  ∀ built, manifest.AllGrounded built →
    match step.run built with
    | .ok (_, later) => manifest.AllGrounded later ∧ shown
    | .error error => manifest.Fault root error

theorem keeps_pure {α : Type} {value : α} {shown : Prop} (h : shown) :
    manifest.Keeps root (pure value) shown :=
  fun _ hbuilt => ⟨hbuilt, h⟩

theorem keeps_throw {α : Type} {error : ManifestError} {shown : Prop}
    (h : manifest.Fault root error) :
    manifest.Keeps root (throw error : Building α) shown :=
  fun _ _ => h

theorem Keeps.bind {α β : Type} {step : Building α} {next : α → Building β} {first second : Prop}
    (hstep : manifest.Keeps root step first)
    (hnext : first → ∀ value, manifest.Keeps root (next value) second) :
    manifest.Keeps root (step >>= next) second := by
  intro built hbuilt
  have hrun := hstep built hbuilt
  rw [StateT.run_bind]
  cases hresult : step.run built with
  | error error =>
    rw [hresult] at hrun
    exact hrun
  | ok answer =>
    rw [hresult] at hrun
    obtain ⟨hlater, hfirst⟩ := hrun
    exact hnext hfirst answer.1 answer.2 hlater

theorem keeps_mapM {α : Type} {references : List Config.Reference}
    {follow : Config.Reference → Building α}
    (h : ∀ reference ∈ references,
      manifest.Keeps root (follow reference) (manifest.Grounded reference.key)) :
    manifest.Keeps root (references.mapM follow)
      (∀ reference ∈ references, manifest.Grounded reference.key) := by
  induction references with
  | nil =>
    rw [List.mapM_nil]
    exact keeps_pure nofun
  | cons reference references ih =>
    rw [List.mapM_cons]
    refine (h reference List.mem_cons_self).bind fun hfirst _ => ?_
    have hothers := ih fun other hother => h other (List.mem_cons_of_mem _ hother)
    exact hothers.bind fun hrest _ => keeps_pure (List.forall_mem_cons.mpr ⟨hfirst, hrest⟩)

theorem keeps_assemble {key : String} {table : Config.ComponentTable}
    {follow : Config.Reference → Building Mount}
    (htable : manifest.components.lookup key = some table)
    (h : ∀ reference ∈ table.imports ++ table.children,
      manifest.Keeps root (follow reference) (manifest.Grounded reference.key)) :
    manifest.Keeps root (manifest.assemble key table follow) (manifest.Grounded key) := by
  have himports := keeps_mapM fun reference hmem => h reference (List.mem_append_left _ hmem)
  have hchildren := keeps_mapM fun reference hmem => h reference (List.mem_append_right _ hmem)
  unfold assemble
  refine himports.bind fun himported _ => hchildren.bind fun hchild _ => ?_
  have hgrounded : manifest.Grounded key := by
    refine .intro (Option.isSome_iff_exists.mpr ⟨table, htable⟩) ?_
    rintro _ ⟨found, hfound, reference, hmem, rfl⟩
    obtain rfl : table = found := Option.some.inj (htable.symm.trans hfound)
    exact (List.mem_append.mp hmem).elim (himported reference) (hchild reference)
  intro built hbuilt
  refine ⟨?_, hgrounded⟩
  intro other component hlookup
  rw [Disk.lookup_cons_ite] at hlookup
  split at hlookup
  · next heq => exact eq_of_beq heq ▸ hgrounded
  · exact hbuilt other component hlookup

theorem keeps_reuse {referencedBy key : String} {fresh : Config.ComponentTable → Building Mount}
    (hundeclared : ¬ manifest.Declared key →
      manifest.Fault root (.unknownComponent key referencedBy))
    (hfresh : ∀ table, manifest.components.lookup key = some table →
      manifest.Keeps root (fresh table) (manifest.Grounded key)) :
    manifest.Keeps root (manifest.reuse referencedBy key fresh) (manifest.Grounded key) := by
  rw [reuse]
  cases htable : manifest.components.lookup key with
  | none => exact keeps_throw (hundeclared (by simp [Declared, htable]))
  | some table =>
    intro built hbuilt
    cases hlookup : built.lookup key with
    | none =>
      have hrun := hfresh table htable built hbuilt
      simpa [hlookup] using hrun
    | some component => simpa [hlookup] using ⟨hbuilt, hbuilt key component hlookup⟩

/-- A component is built only if it is grounded, and an error points at a fault. -/
theorem keeps_build {fuel : Nat} {stack : List String} {referencedBy key : String}
    (hfuel : manifest.unopened stack < fuel) (hleads : manifest.LeadsTo root stack key)
    (hcalled : ¬ manifest.Declared key →
      manifest.Fault root (.unknownComponent key referencedBy)) :
    manifest.Keeps root (manifest.build fuel stack referencedBy key) (manifest.Grounded key) := by
  induction fuel generalizing stack referencedBy key with
  | zero => exact absurd hfuel (Nat.not_lt_zero _)
  | succ fuel ih =>
    rw [build_succ, call]
    refine keeps_reuse hcalled fun table htable => ?_
    have hdeclared : manifest.Declared key := Option.isSome_iff_exists.mpr ⟨table, htable⟩
    split
    · next hkey => exact keeps_throw (hleads.fault hkey)
    · next hkey =>
      refine keeps_assemble htable fun reference hmem => ?_
      have hrefers : manifest.Refers key reference.key := ⟨table, htable, reference, hmem, rfl⟩
      have hless := unopened_concat_lt hdeclared hkey
      have hfault (hnot : ¬ manifest.Declared reference.key) :
          manifest.Fault root (.unknownComponent reference.key key) :=
        .unknown hleads.reached hrefers hnot
      have hnext := ih (by omega) (hleads.extend hkey hrefers) hfault
      exact hnext.bind fun hgrounded _ => keeps_pure hgrounded

/-! ### Resolving -/

theorem isNone_lookup_iff {key : String} :
    (manifest.components.lookup key).isNone ↔ ¬ manifest.Declared key := by
  rw [Declared]
  cases manifest.components.lookup key with
  | none => simp
  | some table => simp

theorem resolve_eq_of_declared (h : manifest.Declared root) :
    manifest.resolve root
      = ((manifest.build (manifest.components.length + 1) [] root root).run []).map Prod.fst := by
  rw [resolve, if_neg fun hnone => isNone_lookup_iff.mp hnone h]

theorem unopened_nil_lt : manifest.unopened [] < manifest.components.length + 1 :=
  Nat.lt_succ_of_le (Nat.le_of_eq unopened_nil)

/-- A declared root is resolved if it is grounded, and otherwise the error points at a fault. -/
theorem resolve_of_declared (h : manifest.Declared root) :
    (∃ mount, manifest.resolve root = .ok mount ∧ manifest.Grounded root) ∨
      ∃ error, manifest.resolve root = .error error ∧ manifest.Fault root error := by
  have hkeeps : manifest.Keeps root (manifest.build (manifest.components.length + 1) [] root root)
      (manifest.Grounded root) :=
    keeps_build unopened_nil_lt (.nil root) fun hnot => absurd h hnot
  have hrun := hkeeps [] nofun
  rw [resolve_eq_of_declared h]
  cases hresult : (manifest.build (manifest.components.length + 1) [] root root).run [] with
  | error error =>
    rw [hresult] at hrun
    exact .inr ⟨error, rfl, hrun⟩
  | ok answer =>
    rw [hresult] at hrun
    exact .inl ⟨answer.1, rfl, hrun.2⟩

/-- Resolving decides which manifests are trees. Its search comes to an end however deep it has to
go, and it succeeds exactly when the root is declared, every component that is referred to from
there on is declared, and no component there leads back to itself. -/
theorem resolve_isOk_iff (manifest : Manifest) (root : String) :
    ((∃! search, manifest.Answers search) ∧
      ∀ search, manifest.Answers search → manifest.Declared root →
        manifest.resolve root = ((search [] root root).run []).map Prod.fst) ∧
    ((∃ mount, manifest.resolve root = .ok mount) ↔
      manifest.Declared root ∧
      (∀ key, ReflTransGen manifest.Refers root key →
        ∀ other, manifest.Refers key other → manifest.Declared other) ∧
      ∀ key, ReflTransGen manifest.Refers root key → ¬ TransGen manifest.Refers key key) ∧
    (¬ manifest.Declared root → manifest.resolve root = .error (.missingRoot root)) := by
  have hmissing (h : ¬ manifest.Declared root) :
      manifest.resolve root = .error (.missingRoot root) := by
    rw [resolve, if_pos (isNone_lookup_iff.mpr h)]
  refine ⟨⟨existsUnique_answers manifest, fun search hsearch h => ?_⟩, ⟨?_, ?_⟩, hmissing⟩
  · rw [resolve_eq_of_declared h, build_eq_of_answers hsearch root root unopened_nil_lt]
  · rintro ⟨mount, hmount⟩
    by_cases h : manifest.Declared root
    · rcases resolve_of_declared h with ⟨_, -, hgrounded⟩ | ⟨error, herror, -⟩
      · exact ⟨h, hgrounded.sound.declared, hgrounded.sound.acyclic⟩
      · rw [herror] at hmount
        cases hmount
    · rw [hmissing h] at hmount
      cases hmount
  · rintro ⟨h, hdeclared, hacyclic⟩
    rcases resolve_of_declared h with ⟨mount, hmount, -⟩ | ⟨error, -, hfault⟩
    · exact ⟨mount, hmount⟩
    · exact absurd ⟨hdeclared, hacyclic⟩ hfault.not_sound

end SiteTree.Manifest

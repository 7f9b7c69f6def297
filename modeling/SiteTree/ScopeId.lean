import SiteTree.Component.Basic
import SiteTree.Hash.Blake3
import SiteTree.Text.Utf8

/-!
# Scope identifiers

Every component of a build gets a short identifier of its own, from which its scope class is
made. A generator proposes identifiers; the registry takes the first proposal that no other
component holds and keeps to it.
-/

namespace SiteTree

structure ScopeId where
  text : String
  deriving DecidableEq, Repr

/-- The class that marks the elements and selectors of a component. -/
def ScopeId.className (id : ScopeId) : String :=
  "-q" ++ id.text

/-! ### Generators -/

/-- A source of identifiers. `generate` gets the component's key and the number of proposals
for it that were refused before. -/
structure Generator (σ : Type) where
  generate : σ → Key → Nat → ScopeId × σ

/-- The generator that proposes what a function of key and attempt gives. -/
def Generator.ofFunction (propose : Key → Nat → ScopeId) : Generator Unit :=
  ⟨fun _ key attempt => (propose key attempt, ())⟩

/-- The four bytes of a number, lowest first. -/
def littleEndian (n : Nat) : List UInt8 :=
  Hash.Blake3.wordBytes n.toUInt32

/-- The first eight hexadecimal digits of the key's digest; the number of the attempt is
hashed along with the key from the second attempt on. -/
def hashedId (key : Key) (attempt : Nat) : ScopeId :=
  let bytes := Text.encodeUtf8 key.text ++ if 0 < attempt then littleEndian attempt else []
  ⟨String.ofList ((Hash.Blake3.hexDigest bytes).toList.take 8)⟩

def hashedIds : Generator Unit :=
  Generator.ofFunction hashedId

/-- Identifiers are numbered in the order in which they are proposed. -/
def sequentialIds : Generator Nat :=
  ⟨fun next _ _ => (⟨toString next⟩, next + 1)⟩

/-! ### The registry -/

/-- The identifiers that are held, in the order in which they were given out, and the
generator's state. -/
structure Registry (σ : Type) where
  generator : Generator σ
  state : σ
  assigned : List (Key × ScopeId)
  /-- what no proposal may be any more -/
  taken : List ScopeId

namespace Registry

variable {σ : Type}

def new (generator : Generator σ) (state : σ) : Registry σ :=
  ⟨generator, state, [], []⟩

/-- The number of proposals that are tried before an assignment is given up. -/
def maxAttempts : Nat := 0x100000000

/-- The first proposal from `attempt` on that is free, with the generator's state after it;
`none` when `fuel` proposals were all taken. -/
def firstFree (registry : Registry σ) (key : Key) :
    (fuel attempt : Nat) → σ → Option (ScopeId × σ)
  | 0, _, _ => none
  | fuel + 1, attempt, state =>
    let (id, state) := registry.generator.generate state key attempt
    if id ∈ registry.taken then registry.firstFree key fuel (attempt + 1) state
    else some (id, state)

/-- The identifier of a key, given out now if it has none yet. -/
def assign? (registry : Registry σ) (key : Key) : Option (ScopeId × Registry σ) :=
  match registry.assigned.lookup key with
  | some id => some (id, registry)
  | none =>
    (registry.firstFree key maxAttempts 0 registry.state).map fun (id, state) =>
      (id, { registry with
        state, assigned := registry.assigned ++ [(key, id)], taken := id :: registry.taken })

end Registry

end SiteTree

import FieldAuthorization.Access.ClientIndex

/-!
Verifiers shared between requests with equal scope sets.

A verifier that has been built carries a serial number, so two answers are the same instance exactly
if their numbers agree. An entry is never removed: once the cache is full, verifiers of further
scope sets are built anew for every request.
-/

set_option autoImplicit false
set_option relaxedAutoImplicit false

namespace FieldAuthorization

structure SharedVerifier where
  serial : Nat
  verifier : Verifier
deriving DecidableEq

/-- The verifiers that are kept, and how many lookups found one and how many did not. Counters of
64 bits agree with these up to 2^64 lookups. -/
structure VerifierCache where
  entries : List (ScopeSet × SharedVerifier)
  hits : Nat
  misses : Nat

structure VerifierSource where
  index : ClientIndex
  settings : CacheSettings

namespace VerifierCache

def empty : VerifierCache :=
  ⟨[], 0, 0⟩

def find? (c : VerifierCache) (scopes : ScopeSet) : Option SharedVerifier :=
  (c.entries.find? (fun entry => entry.1 == scopes)).map Prod.snd

/-- The share of hits among all lookups, zero before the first. -/
def hitRate (c : VerifierCache) : Float :=
  let total := c.hits + c.misses
  if total = 0 then 0.0 else Float.ofNat c.hits / Float.ofNat total

end VerifierCache

/-- The verifier of a scope set, from the cache if it is there. -/
def VerifierSource.lookup (source : VerifierSource) (scopes : ScopeSet) (c : VerifierCache) :
    SharedVerifier × VerifierCache :=
  let built : SharedVerifier := ⟨c.misses, source.index.verifier scopes⟩
  let missed : VerifierCache := { c with misses := c.misses + 1 }
  if !source.settings.enabled then (built, missed)
  else
    match c.find? scopes with
    | some shared => (shared, { c with hits := c.hits + 1 })
    | none =>
      if source.settings.maxEntries ≤ c.entries.length then (built, missed)
      else (built, { missed with entries := c.entries ++ [(scopes, built)] })

end FieldAuthorization

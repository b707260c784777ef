import CodeMoniker.Moniker

/-!
# The code graph

What extraction leaves of one source file : definitions, each with the index of its
parent, and references, each with the index of the definition it stands in. The graph
also keeps a map from moniker to definition index and two caches. None of the three is
compared by the source's `==`, which is `CodeGraph.Same` here.
-/

namespace CodeMoniker

open ByteCodec

/-- Byte offsets of the first and past the last character. -/
abbrev Position := UInt32 × UInt32

structure DefRecord where
  moniker : Moniker
  kind : Bytes
  parent : Option ℕ
  position : Option Position
  visibility : Bytes
  signature : Bytes
  callName : Bytes
  callArity : Option ℕ
  binding : Bytes
  origin : Bytes
  deriving DecidableEq

structure RefRecord where
  source : ℕ
  target : Moniker
  kind : Bytes
  position : Option Position
  receiverHint : Bytes
  aliasName : Bytes
  confidence : Bytes
  callName : Bytes
  callArity : Option ℕ
  binding : Bytes
  deriving DecidableEq

structure CodeGraph where
  defs : List DefRecord
  refs : List RefRecord
  index : AList fun _ : Moniker => ℕ
  defMonikersCache : Option (List Moniker)
  refTargetsCache : Option (List Moniker)

namespace CodeGraph

/-- A moniker that two definitions share is mapped to the later one. -/
def fromRecords (defs : List DefRecord) (refs : List RefRecord) : CodeGraph where
  defs := defs
  refs := refs
  index := defs.zipIdx.foldl (fun index d => index.insert d.1.moniker d.2) ∅
  defMonikersCache := none
  refTargetsCache := none

def defCount (g : CodeGraph) : ℕ := g.defs.length

def refCount (g : CodeGraph) : ℕ := g.refs.length

/-- The source's `==`. -/
def Same (g g' : CodeGraph) : Prop := g.defs = g'.defs ∧ g.refs = g'.refs

instance (g g' : CodeGraph) : Decidable (g.Same g') := inferInstanceAs (Decidable (_ ∧ _))

end CodeGraph

end CodeMoniker

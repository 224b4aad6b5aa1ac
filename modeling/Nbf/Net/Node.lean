import Nbf.Crypto.Sphinx
import Nbf.Net.Cell

/-! The node engine (`node.rs`): circuits, and the CREATE, CREATED and DESTROY
handlers.

A handler returns the node after it and what it does to the outside, in order.
A send is one effect whether or not the link delivers it, since every handler
ignores the result. Senders of channels are known by their channel's number.
-/

set_option autoImplicit false

namespace Nbf.Net

open Nbf.Library Nbf.Crypto

abbrev OneshotTx := Nat
abbrev StreamTx := Nat

structure HopLink where
  cid : UInt32
  peer : SocketAddr
  deriving DecidableEq, Repr

inductive CircuitEntry where
  | origin (fwd bwd : List (Octets 32)) (tag : Octets 16) (next : HopLink) (streams : Table UInt16 StreamTx)
  | relay (tag : Octets 16) (kFwd kBwd : Octets 32) (prev next : HopLink) (lastFwd : UInt32)
  | terminal (tag : Octets 16) (kFwd kBwd : Octets 32) (prev : HopLink) (lastFwd : UInt32)

structure Stats where
  created : Nat := 0
  relayed : Nat := 0
  destroyed : Nat := 0
  paddingRecv : Nat := 0

structure Node (C : Crates) where
  identity : NodeIdentity C
  circuits : Table UInt32 CircuitEntry
  pending : Table UInt32 OneshotTx
  nextCid : UInt32
  seqOrigin : UInt32
  stats : Stats
  createFrags : Table UInt32 FragBuf
  rng : C.Rng

inductive Effect where
  | sendCell (dst : SocketAddr) (cell : Cell)
  | ensurePeerLink (addr : SocketAddr) (linkPub : Octets 32)
  /-- `tx.send(Ok(()))` on a oneshot. -/
  | resolve (tx : OneshotTx)
  /-- `tx.send(data)` on a stream. -/
  | deliver (tx : StreamTx) (data : List UInt8)
  deriving DecidableEq

/-- What `lookup_route` answers for each id at this moment. -/
abbrev Lookup := NodeId → Except NetError Descriptor

variable {C : Crates}

namespace Node

/-- The node `spawn` starts, with the generator as it is after drawing the identity. -/
def spawn (C : Crates) (seed : C.Rng) : Node C :=
  { identity := (NodeIdentity.random C seed).1, circuits := .empty, pending := .empty, nextCid := 1,
    seqOrigin := 64, stats := {}, createFrags := .empty, rng := (NodeIdentity.random C seed).2 }

/-- The cid `new_cid` returns is the counter's old value; the counter wraps. -/
def newCid (node : Node C) : UInt32 × Node C := (node.nextCid, { node with nextCid := node.nextCid + 1 })

/-- `handle_create` after `process_header` succeeded. -/
def completeCreate (node : Node C) (lookup : Lookup) (src : SocketAddr) (cid : UInt32) :
    ProcessOutcome → Node C × List Effect
  | .terminal tag kFwd kBwd =>
    let entry := .terminal tag kFwd kBwd ⟨cid, src⟩ 0
    ({ node with circuits := node.circuits.insert cid entry,
                 stats := { node.stats with created := node.stats.created + 1 } },
      [.sendCell src ⟨cid, .created, 0, []⟩])
  | .relay tag kFwd kBwd nextId nextAddr newHeader =>
    let (ncid, node) := node.newCid
    let entry := .relay tag kFwd kBwd ⟨cid, src⟩ ⟨ncid, nextAddr⟩ 0
    -- An unknown next hop falls back to the all-zero link key.
    let linkPub := match lookup nextId with
      | .ok desc => desc.linkPub
      | .error _ => .zeros 32
    ({ node with circuits := node.circuits.insert cid entry,
                 stats := { node.stats with created := node.stats.created + 1 } },
      .ensurePeerLink nextAddr linkPub ::
        (fragment newHeader).map fun frag => .sendCell nextAddr ⟨ncid, .create, 0, frag⟩)

/-- The header a CREATE cell completes, if any, and the buffers after it. -/
def gather (node : Node C) (cell : Cell) : Option (List UInt8) × Table UInt32 FragBuf :=
  match parseFrag cell.payload with
  | .ok (total, idx, chunk) => reassemble cell.cid idx total chunk node.createFrags
  | _ => (none, node.createFrags)

def handleCreate (node : Node C) (lookup : Lookup) (src : SocketAddr) (cell : Cell) : Node C × List Effect :=
  let (full, frags) := node.gather cell
  let node := { node with createFrags := frags }
  match full with
  | none => (node, [])
  | some header =>
    match processHeader C node.identity header with
    | .ok outcome => node.completeCreate lookup src cell.cid outcome
    | _ => (node, [])

def handleCreated (node : Node C) (_src : SocketAddr) (cell : Cell) : Node C × List Effect :=
  match node.pending.get cell.cid with
  | some tx => ({ node with pending := node.pending.remove cell.cid }, [.resolve tx])
  | none =>
    match node.circuits.get cell.cid with
    | some (.relay _ _ _ prev _ _) => (node, [.sendCell prev.peer ⟨prev.cid, .created, 0, []⟩])
    | _ => (node, [])

def handleDestroy (node : Node C) (_src : SocketAddr) (cell : Cell) : Node C × List Effect :=
  let entry := node.circuits.get cell.cid
  let node := { node with circuits := node.circuits.remove cell.cid,
                          stats := { node.stats with destroyed := node.stats.destroyed + 1 } }
  match entry with
  | some (.relay _ _ _ prev _ _) => (node, [.sendCell prev.peer ⟨prev.cid, .destroy, 0, []⟩])
  | some (.terminal _ _ _ prev _) => (node, [.sendCell prev.peer ⟨prev.cid, .destroy, 0, []⟩])
  | _ => (node, [])

/-- `register_stream`: only an Origin entry has streams. -/
def registerStream (node : Node C) (cid : UInt32) (stream : UInt16) (tx : StreamTx) : Node C :=
  match node.circuits.get cid with
  | some (.origin fwd bwd tag next streams) =>
    { node with circuits := node.circuits.insert cid (.origin fwd bwd tag next (streams.insert stream tx)) }
  | _ => node

end Node
end Nbf.Net

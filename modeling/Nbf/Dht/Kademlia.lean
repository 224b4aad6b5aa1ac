import Nbf.Dht.Rpc
import Nbf.Library.Table

/-! The DHT node (`kademlia.rs`): one flat routing table, sorted by XOR distance,
and a store of descriptors by node id. -/

set_option autoImplicit false

namespace Nbf.Dht

open Nbf.Library Nbf.Crypto

def k : Nat := 3
def alpha : Nat := 3
/-- How long a descriptor lasts after its `ts`, in seconds. No function reads it. -/
def ttlDesc : Nat := 86400

def recvBuf : Nat := 4096

/-- What `recv_from` returns of a datagram: as much as the buffer holds. -/
def recvFrom (datagram : List UInt8) : List UInt8 := datagram.take recvBuf

theorem recvFrom_rpcEncode {msg : RpcMsg} {bytes : List UInt8} (encoded : rpcEncode msg = .ok bytes)
    (few : msg.contacts.length ≤ 100) : recvFrom bytes = bytes := by
  have size := length_rpcEncode encoded
  refine List.take_of_length_le (Nat.le_trans size ?_)
  simp only [recvBuf]
  omega

theorem rpcDecode_recvFrom {C : Crates} {msg : RpcMsg} (few : msg.contacts.length ≤ 100)
    (back : ∃ bytes, rpcEncode msg = .ok bytes ∧ rpcDecode C bytes = .ok msg) :
    ∃ bytes, rpcEncode msg = .ok bytes ∧ rpcDecode C (recvFrom bytes) = .ok msg := by
  obtain ⟨bytes, encoded, decoded⟩ := back
  exact ⟨bytes, encoded, (recvFrom_rpcEncode encoded few).symm ▸ decoded⟩

/-- The sending half of the oneshot channel on which a call waits. -/
abbrev ReplyTx := Nat

structure Kademlia where
  id : NodeId
  ownDesc : Descriptor
  rt : List Contact
  store : Table NodeId Descriptor
  pending : Table SocketAddr ReplyTx

/-- XOR distance, most significant byte first. -/
def dist (a b : NodeId) : List UInt8 := List.zipWith (· ^^^ ·) a.bytes b.bytes

/-- `sort_by_key` by the distance to `key`, which is stable. -/
def sortByDist (key : NodeId) (contacts : List Contact) : List Contact :=
  contacts.mergeSort fun a b => decide (dist a.nodeId key ≤ dist b.nodeId key)

theorem sortByDist_pair (key : NodeId) (a b : Contact) :
    sortByDist key [a, b] = if dist a.nodeId key ≤ dist b.nodeId key then [a, b] else [b, a] := by
  by_cases nearer : dist a.nodeId key ≤ dist b.nodeId key <;>
    simp [sortByDist, List.mergeSort, List.MergeSort.Internal.splitInTwo, nearer]

namespace Kademlia

def new (id : NodeId) (ownDesc : Descriptor) : Kademlia :=
  { id, ownDesc, rt := [Contact.fromDesc ownDesc], store := .empty, pending := .empty }

def closest (kad : Kademlia) (key : NodeId) (k : Nat) : List Contact := (sortByDist key kad.rt).take k

/-- One contact of `try_merge`: neither the node itself nor an id that is there already. -/
def mergeOne (id : NodeId) (rt : List Contact) (c : Contact) : List Contact :=
  if c.nodeId = id then rt else if rt.any (·.nodeId = c.nodeId) then rt else rt ++ [c]

def tryMerge (kad : Kademlia) (contacts : List Contact) : Kademlia :=
  { kad with rt := (sortByDist kad.id (contacts.foldl (mergeOne kad.id) kad.rt)).take 64 }

/-- The datagrams of a `send_raw`: none if the encoder panics. -/
def sendRaw (dst : SocketAddr) (msg : RpcMsg) : List (SocketAddr × List UInt8) :=
  match rpcEncode msg with
  | .ok bytes => [(dst, bytes)]
  | _ => []

/-- `handle`, after decoding, where nothing comes between its locks. -/
def handle (kad : Kademlia) (src : SocketAddr) : RpcMsg → Kademlia × List (SocketAddr × List UInt8)
  | .ping nonce => (kad, sendRaw src (pingResponse nonce))
  | .store desc => ({ kad with store := kad.store.insert desc.nodeId desc }.tryMerge [Contact.fromDesc desc], [])
  | .find key wantValue =>
    let value := if wantValue then kad.store.get key else none
    (kad, sendRaw src (.found (kad.closest key k) value))
  | .found _ _ => (kad, [])
  | .pong _ => (kad, [])

def Keyed (kad : Kademlia) : Prop := ∀ key d, kad.store.get key = some d → d.nodeId = key

theorem Keyed.handle {kad : Kademlia} (keyed : kad.Keyed) (src : SocketAddr) (msg : RpcMsg) : (kad.handle src msg).1.Keyed := by
  cases msg with
  | ping | pong | find | found => exact keyed
  | store desc =>
    intro key d here
    rcases Table.get_insert_some here with ⟨same, rfl⟩ | ⟨-, old⟩
    · exact same.symm
    · exact keyed key d old

end Kademlia
end Nbf.Dht

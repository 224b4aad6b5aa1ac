import Nbf.Dht.Steps

/-! What a node keeps in its store and answers with: checked descriptors, under
their own ids. -/

set_option autoImplicit false

namespace Nbf.Dht

open Nbf.Library Nbf.Crypto Nbf.Net

/-- Every descriptor in the store is checked, and stands under the id of its key. -/
def Kademlia.Sound (C : Crates) (kad : Kademlia) : Prop :=
  ∀ key d, kad.store.get key = some d → d.nodeId = key ∧ d.Verified C

namespace DhtNode

variable {C : Crates} {s t : DhtNode} {event : Event}

theorem Step.sound (step : Step C s event t) (sound : s.kad.Sound C) : t.kad.Sound C := by
  cases step.change with
  | none _ same =>
    intro key d here
    exact sound key d (same.store ▸ here)
  | stored decoded =>
    intro key d here
    rcases Table.get_insert_some here with ⟨same, rfl⟩ | ⟨-, old⟩
    · exact ⟨same.symm, rpcDecode_store_verified decoded⟩
    · exact sound key d old
  | merged _ merged =>
    intro key d here
    rw [merged] at here
    exact sound key d here

theorem sound_spawn {identity : NodeIdentity C} {ownDesc : Descriptor} (verified : ownDesc.Verified C)
    (signed : Descriptor.SignedBy identity ownDesc) (rt : List Contact) : (spawn identity ownDesc rt).kad.Sound C := by
  intro key d here
  rcases Table.get_insert_some here with ⟨same, rfl⟩ | ⟨-, old⟩
  · exact ⟨signed.fields.1.trans same.symm, verified⟩
  · cases old

/-- A FIND is answered with the contacts nearest to the key and what the store has, in bytes that the requester's buffer holds. -/
theorem receive_find (src : SocketAddr) {data : List UInt8} {key : NodeId} {wantValue : Bool} (sound : s.kad.Sound C)
    (decoded : rpcDecode C (recvFrom data) = .ok (.find key wantValue)) :
    ∃ bytes, s.receive C src data = { s with sent := s.sent ++ [(src, bytes)] } ∧ recvFrom bytes = bytes ∧
      rpcDecode C bytes = .ok (.found (s.kad.closest key k) (if wantValue then s.kad.store.get key else none)) := by
  have few : (s.kad.closest key k).length < 2 ^ 16 :=
    Nat.lt_of_le_of_lt (List.length_take_le k _) (by decide)
  have checked : ∀ d ∈ (if wantValue then s.kad.store.get key else none), d.Verified C := by
    intro d here
    split at here
    · exact (sound key d here).2
    · cases here
  obtain ⟨bytes, encoded, back⟩ := rpcDecode_found _ _ few checked
  refine ⟨bytes, ?_, recvFrom_rpcEncode encoded ((List.length_take_le k _).trans (by decide)), back⟩
  simp only [receive, decoded, Kademlia.handle, Kademlia.sendRaw, encoded]

/-- Whatever datagrams come in: all that is stored names the id under which it stands, is signed by the key
of that id, and every FIND is answered with what `closest` and the store give, in bytes that can be read. -/
theorem stored_and_served {identity : NodeIdentity C} {ownDesc : Descriptor}
    (verifies : ∀ key msg, C.verify (C.verifyingKey key) msg (C.sign key msg) = true)
    (signed : Descriptor.SignedBy identity ownDesc) {events : List Event}
    (run : Run (Step C) (spawn identity ownDesc []) events t) :
    (∀ key d, t.kad.store.get key = some d → d.nodeId = key ∧ nodeIdFromEdPub C d.edPub = key ∧
      ∃ signing, (d.signingBytes : Checked CryptoError _) = .ok signing ∧ C.verify d.edPub signing d.sig = true) ∧
    ∀ src data key wantValue, rpcDecode C (recvFrom data) = .ok (.find key wantValue) →
      ∃ bytes, t.receive C src data = { t with sent := t.sent ++ [(src, bytes)] } ∧
        rpcDecode C bytes = .ok (.found (t.kad.closest key k) (if wantValue then t.kad.store.get key else none)) := by
  have sound : t.kad.Sound C := run.invariant (fun s => s.kad.Sound C) (fun _ _ _ before step => step.sound before)
    (sound_spawn (signed.verified_of verifies) signed [])
  refine ⟨fun key d here => ?_, fun src data key wantValue decoded => ?_⟩
  · obtain ⟨named, verified⟩ := sound key d here
    exact ⟨named, verified.named.trans named, verified.signed⟩
  · obtain ⟨bytes, answered, -, read⟩ := receive_find src sound decoded
    exact ⟨bytes, answered, read⟩

end DhtNode

namespace Transparent

open Nbf.Crypto.Transparent

/-- A node that has taken in the descriptor of another serves it. -/
theorem peer_served : ∃ events t, Run (DhtNode.Step crates) alone events t ∧
    t.kad.store.get (identity 20).nodeId = some (descriptor 20 9101) ∧
    ((∀ key d, t.kad.store.get key = some d → d.nodeId = key ∧ nodeIdFromEdPub crates d.edPub = key ∧
      ∃ signing, (d.signingBytes : Checked CryptoError _) = .ok signing ∧ crates.verify d.edPub signing d.sig = true) ∧
    ∀ src data key wantValue, rpcDecode crates (recvFrom data) = .ok (.find key wantValue) →
      ∃ bytes, t.receive crates src data = { t with sent := t.sent ++ [(src, bytes)] } ∧
        rpcDecode crates bytes = .ok (.found (t.kad.closest key k) (if wantValue then t.kad.store.get key else none))) := by
  obtain ⟨data, -, -, stored⟩ := alone_learns
  have run := Run.single (DhtNode.Step.receive (C := crates) alone known.addr data)
  exact ⟨_, _, run, stored, DhtNode.stored_and_served lawful.verify_sign (descriptor_signed 1 9100) run⟩

end Transparent
end Nbf.Dht

import Nbf.Dht.Served

/-! The peers a node may pad to or build routes through (`route_peers` in
`node.rs`, `pick_peer` in `cover.rs`): its routing table joined with its store.

The node's own contact is in the one and its own descriptor in the other from
`spawn` on, and neither ever leaves.
-/

set_option autoImplicit false

namespace Nbf.Dht

open Nbf.Library Nbf.Crypto Nbf.Net

/-- The contacts of the table that the store has a descriptor of, with the address of their cells and
their link key. -/
def routePeers (rt : List Contact) (store : Table NodeId Descriptor) : List (NodeId × SocketAddr × Octets 32) :=
  rt.filterMap fun c => (store.get c.nodeId).map fun d => (c.nodeId, d.cellAddr, d.linkPub)

def pickPeer (peers : List (NodeId × SocketAddr × Octets 32)) (i : Nat) : Option (SocketAddr × Octets 32) :=
  peers[i]?.map fun peer => (peer.2.1, peer.2.2)

def Described (C : Crates) (peer : NodeId × SocketAddr × Octets 32) : Prop :=
  ∃ d : Descriptor, d.Verified C ∧ d.nodeId = peer.1 ∧ d.cellAddr = peer.2.1 ∧ d.linkPub = peer.2.2

structure OthersOnly (C : Crates) (own : NodeId) (peers : List (NodeId × SocketAddr × Octets 32)) : Prop where
  once : (peers.map Prod.fst).Nodup
  others : own ∉ peers.map Prod.fst
  described : ∀ peer ∈ peers, Described C peer

theorem mem_routePeers {rt : List Contact} {store : Table NodeId Descriptor} {peer : NodeId × SocketAddr × Octets 32} :
    peer ∈ routePeers rt store ↔
      ∃ c ∈ rt, ∃ d, store.get c.nodeId = some d ∧ peer = (c.nodeId, d.cellAddr, d.linkPub) := by
  simp only [routePeers, List.mem_filterMap, Option.map_eq_some_iff, eq_comm (a := peer)]

theorem ids_routePeers (rt : List Contact) (store : Table NodeId Descriptor) :
    ((routePeers rt store).map Prod.fst).Sublist (rt.map (·.nodeId)) := by
  induction rt with
  | nil => exact .slnil
  | cons c rt ih =>
    cases known : store.get c.nodeId with
    | none =>
      rw [routePeers, List.filterMap_cons_none (by rw [known, Option.map_none])]
      exact ih.cons _
    | some d =>
      rw [routePeers, List.filterMap_cons_some (by rw [known, Option.map_some])]
      exact ih.cons_cons _

namespace DhtNode

variable {C : Crates} {s t : DhtNode} {event : Event}

theorem Step.stays_stored (step : Step C s event t) {key : NodeId} (stored : (s.kad.store.get key).isSome) :
    (t.kad.store.get key).isSome := by
  cases step.change with
  | none _ same => rwa [same.store]
  | @stored _ _ desc =>
    have replaced : (({ s.kad with store := s.kad.store.insert desc.nodeId desc } : Kademlia).store.get key).isSome := by
      rw [Table.get_insert]
      split
      · rfl
      · exact stored
    exact replaced
  | merged _ merged => rwa [merged]

structure Itself (C : Crates) (own : NodeId) (s : DhtNode) : Prop where
  id : s.kad.id = own
  arranged : s.kad.Arranged
  sound : s.kad.Sound C
  stored : (s.kad.store.get own).isSome

theorem Itself.step {own : NodeId} (itself : Itself C own s) (step : Step C s event t) : Itself C own t where
  id := step.id_ownDesc.1.trans itself.id
  arranged := step.arranged itself.arranged
  sound := step.sound itself.sound
  stored := step.stays_stored itself.stored

theorem itself_spawn {identity : NodeIdentity C} {ownDesc : Descriptor} (verified : ownDesc.Verified C)
    (signed : Descriptor.SignedBy identity ownDesc) : Itself C identity.nodeId (spawn identity ownDesc []) where
  id := rfl
  arranged := arranged_spawn signed
  sound := sound_spawn verified signed []
  stored := Option.isSome_iff_exists.mpr ⟨ownDesc, Table.get_insert_self ..⟩

theorem Itself.run {own : NodeId} {events : List Event} (itself : Itself C own s) (run : Run (Step C) s events t) :
    Itself C own t :=
  run.invariant (Itself C own) (fun _ _ _ itself step => itself.step step) itself

/-- Whatever came in: the peers, read from the table and a little later from the store, are different nodes at
checked addresses, and the node itself is one of them, to which padding may go. -/
theorem peers_name_own {identity : NodeIdentity C} {ownDesc : Descriptor}
    (verifies : ∀ key msg, C.verify (C.verifyingKey key) msg (C.sign key msg) = true)
    (signed : Descriptor.SignedBy identity ownDesc) {before between : List Event}
    (run : Run (Step C) (spawn identity ownDesc []) before s) (later : Run (Step C) s between t) :
    let peers := routePeers s.kad.rt t.kad.store
    ¬ OthersOnly C identity.nodeId peers ∧ (peers.map Prod.fst).Nodup ∧ (∀ peer ∈ peers, Described C peer) ∧
      ∃ i < peers.length, ∃ d : Descriptor, d.Verified C ∧ d.nodeId = identity.nodeId ∧
        pickPeer peers i = some (d.cellAddr, d.linkPub) := by
  intro peers
  have now := (itself_spawn (signed.verified_of verifies) signed).run run
  have then_ := now.run later
  obtain ⟨d, stored⟩ := Option.isSome_iff_exists.mp then_.stored
  obtain ⟨named, verified⟩ := then_.sound _ d stored
  have ownId : (Contact.fromDesc s.kad.ownDesc).nodeId = identity.nodeId := now.arranged.named.trans now.id
  have own : (identity.nodeId, d.cellAddr, d.linkPub) ∈ peers := by
    refine mem_routePeers.mpr ⟨Contact.fromDesc s.kad.ownDesc, now.arranged.own, d, ?_, ?_⟩
    · rw [ownId, stored]
    · rw [ownId]
  refine ⟨?_, (ids_routePeers _ _).nodup now.arranged.ascending.nodup, ?_, ?_⟩
  · intro only
    exact only.others (List.mem_map.mpr ⟨_, own, rfl⟩)
  · intro peer member
    obtain ⟨c, -, d, known, rfl⟩ := mem_routePeers.mp member
    obtain ⟨named, verified⟩ := then_.sound _ d known
    exact ⟨d, verified, named, rfl, rfl⟩
  · obtain ⟨i, drawn⟩ := List.mem_iff_getElem?.mp own
    obtain ⟨below, -⟩ := List.getElem?_eq_some_iff.mp drawn
    exact ⟨i, below, d, verified, named, by rw [pickPeer, drawn]; rfl⟩

end DhtNode

namespace Transparent

open Nbf.Crypto.Transparent

/-- Between the two reads of `route_peers` the STORE of another node comes in; a read later it is named, too. -/
theorem alone_names_own : ∃ data t, Run (DhtNode.Step crates) alone [.receive known.addr data] t ∧
    ¬ OthersOnly crates (identity 1).nodeId (routePeers alone.kad.rt t.kad.store) ∧
    ¬ OthersOnly crates (identity 1).nodeId (routePeers t.kad.rt t.kad.store) ∧
    known.nodeId ∈ (routePeers t.kad.rt t.kad.store).map Prod.fst := by
  obtain ⟨data, -, table, stored⟩ := alone_learns
  have run := Run.single (DhtNode.Step.receive (C := crates) alone known.addr data)
  have signed := descriptor_signed 1 9100
  have named : (known.nodeId, (descriptor 20 9101).cellAddr, (descriptor 20 9101).linkPub) ∈
      routePeers (alone.receive crates known.addr data).kad.rt (alone.receive crates known.addr data).kad.store :=
    mem_routePeers.mpr ⟨known, by simp [table], descriptor 20 9101, stored, rfl⟩
  exact ⟨data, _, run, (DhtNode.peers_name_own lawful.verify_sign signed (.nil alone) run).1,
    (DhtNode.peers_name_own lawful.verify_sign signed run (.nil _)).1, List.mem_map.mpr ⟨_, named, rfl⟩⟩

/-- A node that has heard of nobody takes itself for its only peer. -/
theorem alone_pads_itself : routePeers alone.kad.rt alone.kad.store =
      [((identity 1).nodeId, localhost 9100, (identity 1).linkPub)] ∧
    ¬ OthersOnly crates (identity 1).nodeId (routePeers alone.kad.rt alone.kad.store) := by
  have stored : alone.kad.store.get (Contact.fromDesc (descriptor 1 9100)).nodeId = some (descriptor 1 9100) :=
    Table.get_insert_self ..
  have only : routePeers alone.kad.rt alone.kad.store = [((identity 1).nodeId, localhost 9100, (identity 1).linkPub)] := by
    have table : alone.kad.rt = [Contact.fromDesc (descriptor 1 9100)] := rfl
    rw [routePeers, table, List.filterMap_cons_some (by rw [stored, Option.map_some])]
    rfl
  refine ⟨only, fun others => others.others ?_⟩
  rw [only]
  exact List.mem_cons_self

end Transparent
end Nbf.Dht

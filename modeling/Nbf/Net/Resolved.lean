import Nbf.Dht.Peers
import Nbf.Dht.Swarm
import Nbf.Net.Build

/-! `build_circuit` over what the DHT has answered, and the route that `send_once` draws for it.

The DHT side of every member runs in a swarm that loses, doubles and reorders what it likes; the
cell side sits at the address that the member has signed.
-/

set_option autoImplicit false

namespace Nbf.Net

open Nbf.Library Nbf.Crypto
open Nbf.Dht (Member Swarm SwarmEvent DhtNode routePeers)

variable {C : Crates}

/-- The members' cell sides, each under its identity where its descriptor says. -/
structure Housed (members : List (Member C)) (net : Network C) : Prop where
  listens : ∀ m ∈ members, ∃ node, net.nodes.get m.desc.cellAddr = some node ∧ node.identity = m.identity
  apart : (members.map fun m => m.desc.cellAddr).Nodup
  generated : ∀ m ∈ members, m.identity.Generated
  inner : ∀ m ∈ members, m.desc.nodeId ≠ terminalId

def hopsAt (net : Network C) (origin : Node C) (descs : List Descriptor) : List (SocketAddr × Node C) :=
  descs.map fun d => (d.cellAddr, (net.nodes.get d.cellAddr).getD origin)

def lookupIn (descs : List Descriptor) : Lookup := fun id =>
  match descs.find? fun d => d.nodeId = id with
  | some d => .ok d
  | none => .error .timeout

theorem lookupIn_ok {descs : List Descriptor} (distinct : (descs.map Descriptor.nodeId).Nodup) {d : Descriptor}
    (member : d ∈ descs) :
    lookupIn descs d.nodeId = .ok d := by
  have found : (descs.find? fun other => other.nodeId = d.nodeId).isSome :=
    List.find?_isSome.mpr ⟨d, member, by simp⟩
  obtain ⟨other, here⟩ := Option.isSome_iff_exists.mp found
  have same : other = d := by
    refine List.inj_on_of_nodup_map distinct (List.mem_of_find?_eq_some here) member ?_
    simpa using List.find?_some here
  rw [lookupIn, here, same]

theorem resolveRoute_answers {lookup : Lookup} {route : List NodeId} {descs : List Descriptor}
    (resolved : resolveRoute lookup route = .ok descs) : List.Forall₂ (fun id d => lookup id = .ok d) route descs := by
  induction route generalizing descs with
  | nil =>
    obtain rfl : [] = descs := Except.ok.inj resolved
    exact .nil
  | cons id rest ih =>
    rw [resolveRoute] at resolved
    cases first : lookup id with
    | error err =>
      rw [first] at resolved
      cases resolved
    | ok d =>
      rw [first] at resolved
      cases later : resolveRoute lookup rest with
      | error err =>
        rw [later] at resolved
        cases resolved
      | ok others =>
        rw [later] at resolved
        obtain rfl : d :: others = descs := Except.ok.inj resolved
        exact .cons first (ih later)

theorem Node.buildStart_congr (node : Node C) {lookup lookup' : Lookup} (tx : OneshotTx) {route route' : List NodeId}
    (length : route.length = route'.length) (same : resolveRoute lookup route = resolveRoute lookup' route') :
    node.buildStart lookup tx route = node.buildStart lookup' tx route' := by
  have empty : route = [] ↔ route' = [] := by rw [← List.length_eq_zero_iff, length, List.length_eq_zero_iff]
  rw [buildStart, buildStart, same, length, if_congr (or_congr_left empty) rfl rfl]

/-- Members of a route that the DHT has named make it ready. -/
theorem Housed.ready {members : List (Member C)} {net : Network C} (housed : Housed members net) (rest : net.wire = [])
    {own : Member C} (among : own ∈ members) {origin : Node C} (present : net.nodes.get own.desc.cellAddr = some origin)
    {descs : List Descriptor} (owned : ∀ d ∈ descs, Dht.Own members d) (nonempty : descs ≠ []) (short : descs.length ≤ maxHops)
    (distinct : ((own.desc :: descs).map Descriptor.nodeId).Nodup)
    (idle : ∀ d ∈ descs, ∀ node, net.nodes.get d.cellAddr = some node → node.circuits = .empty ∧ node.createFrags = .empty) :
    Ready net (lookupIn descs) own.desc.cellAddr origin (hopsAt net origin descs) descs := by
  have there (d : Descriptor) (member : d ∈ descs) :
      ∃ node, net.nodes.get d.cellAddr = some node ∧ (net.nodes.get d.cellAddr).getD origin = node ∧
        node.identity.Generated ∧ Descriptor.SignedBy node.identity d := by
    obtain ⟨m, listed, rfl⟩ := owned d member
    obtain ⟨node, here, identity⟩ := housed.listens m listed
    exact ⟨node, here, by rw [here]; rfl, identity ▸ housed.generated m listed, identity ▸ m.signed⟩
  have all : ∀ d ∈ own.desc :: descs, Dht.Own members d := List.forall_mem_cons.mpr ⟨⟨own, among, rfl⟩, owned⟩
  have addresses : (hopsAt net origin descs).map Prod.fst = descs.map Descriptor.cellAddr := by
    rw [hopsAt, List.map_map]
    rfl
  have identities : (hopsAt net origin descs).map (fun hop => hop.2.identity) =
      descs.map fun d => ((net.nodes.get d.cellAddr).getD origin).identity := by
    rw [hopsAt, List.map_map]
    rfl
  refine ⟨present, rest, ?_, ?_, ?_, addresses.symm, fun d member => lookupIn_ok (List.nodup_cons.mp distinct).2 member⟩
  · intro hop member
    obtain ⟨d, listed, rfl⟩ := List.mem_map.mp member
    obtain ⟨node, here, stands, -⟩ := there d listed
    obtain ⟨circuits, createFrags⟩ := idle d listed node here
    exact ⟨here.trans (congrArg some stands.symm), stands ▸ circuits, stands ▸ createFrags⟩
  · rw [addresses]
    -- Members that differ are at different addresses.
    refine List.Nodup.map_on (l := own.desc :: descs) ?_ distinct.of_map
    intro d member d' member' same
    obtain ⟨m, listed, rfl⟩ := all d member
    obtain ⟨m', listed', rfl⟩ := all d' member'
    rw [List.inj_on_of_nodup_map housed.apart listed listed' same]
  · rw [identities]
    refine ⟨?_, ?_, ?_, ?_, ?_⟩
    · intro id member
      obtain ⟨d, listed, rfl⟩ := List.mem_map.mp member
      obtain ⟨node, -, stands, generated, -⟩ := there d listed
      exact stands ▸ generated
    · rw [List.forall₂_map_left_iff, List.forall₂_same]
      intro d listed
      obtain ⟨node, -, stands, -, signed⟩ := there d listed
      exact stands ▸ signed
    · rw [List.length_map]
      exact List.length_pos_iff.mpr nonempty
    · rwa [List.length_map]
    · intro d listed
      obtain ⟨m, among, rfl⟩ := owned d listed
      exact housed.inner m among

/-- A circuit over whatever the lookups of this node have returned, in a swarm that may lose, double and delay any datagram,
through idle nodes and with no other cell under way: it comes to lie in the members that have signed what was returned, in
the order of the route, each of them with no other entry. -/
theorem resolved_circuit (laws : C.Lawful) (members : List (Member C)) (apart : (members.map fun m => m.desc.dhtAddr).Nodup)
    {events : List SwarmEvent} {t : Swarm} (run : Run (Swarm.Step C) (Swarm.start members) events t) {own : Member C}
    (among : own ∈ members) {dht : DhtNode} (here : t.nodes.get own.desc.dhtAddr = some dht) {lookup : Lookup}
    (returned : ∀ id d, lookup id = .ok d → ∃ i, dht.tasks.get i = some (.routed id (.ok d))) {net : Network C}
    (housed : Housed members net) (rest : net.wire = []) {origin : Node C}
    (present : net.nodes.get own.desc.cellAddr = some origin) {route : List NodeId} {descs : List Descriptor}
    (resolved : resolveRoute lookup route = .ok descs) (nonempty : route ≠ []) (short : route.length ≤ maxHops)
    (distinct : ((own.desc :: descs).map Descriptor.nodeId).Nodup)
    (idle : ∀ d ∈ descs, ∀ node, net.nodes.get d.cellAddr = some node → node.circuits = .empty ∧ node.createFrags = .empty)
    (tx : OneshotTx) (fresh : (own.desc.cellAddr, .resolve tx) ∉ net.notices) :
    ∃ (hops : List (SocketAddr × Node C)) (node : Node C) (effects : List Effect) (built : BuiltHeader) (final : Network C)
      (labels : List Packet),
      List.Forall₂ (fun hop d => hop.1 = d.cellAddr ∧ Descriptor.SignedBy hop.2.identity d) hops descs ∧
      origin.buildStart lookup tx route = (node, effects, .ok ⟨origin.nextCid, built⟩) ∧
      Run Network.Step (net.update own.desc.cellAddr node effects []) labels final ∧ final.wire = [] ∧
      (∀ labels other, Run Network.Step (net.update own.desc.cellAddr node effects []) labels other → other.wire = [] →
        other = final) ∧
      (let stored := storedHops origin.nextCid hops (built.fwdKeys.zip built.bwdKeys)
       stored.map Hop.addr = descs.map Descriptor.cellAddr ∧ Installed final built.tag own.desc.cellAddr stored ∧
        Sole final stored) ∧
      (BuildReturns final own.desc.cellAddr tx ⟨origin.nextCid, built⟩ ↔
        ∀ hop ∈ hops.dropLast, hop.2.nextCid = origin.nextCid ∧ hop.2.pending.get origin.nextCid = none) := by
  have answers := resolveRoute_answers resolved
  have length := answers.length_eq.symm
  have guided := Swarm.guided laws.verify_sign members apart run own.desc.dhtAddr dht here
  have owned (d : Descriptor) (member : d ∈ descs) : Dht.Own members d := by
    obtain ⟨n, at_n⟩ := List.mem_iff_getElem?.mp member
    obtain ⟨id, -, answer⟩ := forall₂_getElem? answers.flip at_n
    obtain ⟨i, ended⟩ := returned id d answer
    exact guided.routed i id d ended
  have some : descs ≠ [] := fun none => nonempty (List.length_eq_zero_iff.mp (by rw [← length, none]; rfl))
  have ready := housed.ready rest among present owned some (by rwa [length]) distinct idle
  have same : origin.buildStart lookup tx route = origin.buildStart (lookupIn descs) tx (descs.map Descriptor.nodeId) :=
    origin.buildStart_congr tx (by rw [List.length_map, length]) (resolved.trans (resolveRoute_ok ready.resolves).symm)
  obtain ⟨node, effects, built, final, start, path, quiet, lengths, installed, sole, returns⟩ := ready.outcome laws tx fresh
  obtain ⟨labels, reached⟩ := path.toRun
  refine ⟨hopsAt net origin descs, node, effects, built, final, labels, ?_, same.trans start, reached, quiet,
    fun _ other ends stuck => path.run_ends (fun _ _ => Network.quiet quiet) ends fun _ _ => Network.quiet stuck,
    ⟨?_, installed, sole⟩,
    returns.trans (answers_iff _ origin.nextCid)⟩
  · have signed := ready.honest.signed
    rw [hopsAt, List.map_map, List.forall₂_map_left_iff, List.forall₂_same] at signed
    rw [hopsAt, List.forall₂_map_left_iff, List.forall₂_same]
    exact fun d member => ⟨rfl, signed d member⟩
  · rw [storedHops_map_addr _ _ _ lengths, ← ready.addresses]

/-! ## The route of `send_once` -/

/-- One hop for each draw, below the length of the pool, and out of it once drawn. -/
def drawHops (pool : List NodeId) : List Nat → List NodeId
  | [] => []
  | draw :: draws =>
    match pool[draw % pool.length]? with
    | none => []
    | some id => id :: drawHops (pool.eraseIdx (draw % pool.length)) draws

/-- Three hops out of the peers besides the target, then the target; or how many there are, if too few. -/
def sendOnceRoute (peers : List (NodeId × SocketAddr × Octets 32)) (target : NodeId) (i j k : Nat) : Except Nat (List NodeId) :=
  let pool := (peers.map Prod.fst).filter fun id => id ≠ target
  if pool.length < 3 then .error pool.length else .ok (drawHops pool [i, j, k] ++ [target])

theorem drawHops_subset (pool : List NodeId) (draws : List Nat) : drawHops pool draws ⊆ pool := by
  induction draws generalizing pool with
  | nil => exact List.nil_subset _
  | cons draw draws ih =>
    rw [drawHops]
    cases drawn : pool[draw % pool.length]? with
    | none => exact List.nil_subset _
    | some id => exact List.cons_subset.mpr ⟨List.mem_of_getElem? drawn, fun _ member => List.mem_of_mem_eraseIdx (ih _ member)⟩

theorem nodup_drawHops {pool : List NodeId} (distinct : pool.Nodup) (draws : List Nat) : (drawHops pool draws).Nodup := by
  induction draws generalizing pool with
  | nil => exact .nil
  | cons draw draws ih =>
    rw [drawHops]
    cases drawn : pool[draw % pool.length]? with
    | none => exact .nil
    | some id =>
      refine List.nodup_cons.mpr ⟨fun again => ?_, ih (distinct.eraseIdx _)⟩
      obtain ⟨j, other, same⟩ := List.mem_eraseIdx_iff_getElem?.mp (drawHops_subset _ _ again)
      obtain ⟨below, -⟩ := List.getElem?_eq_some_iff.mp drawn
      exact other ((List.getElem?_inj below distinct).mp (drawn.trans same.symm)).symm

theorem length_drawHops {pool : List NodeId} {draws : List Nat} (enough : draws.length ≤ pool.length) :
    (drawHops pool draws).length = draws.length := by
  induction draws generalizing pool with
  | nil => rfl
  | cons draw draws ih =>
    rw [List.length_cons] at enough
    have below : draw % pool.length < pool.length := Nat.mod_lt _ (by omega)
    rw [drawHops, List.getElem?_eq_getElem below]
    simp only [List.length_cons, Nat.add_right_cancel_iff]
    refine ih ?_
    rw [List.length_eraseIdx_of_lt below]
    omega

def Silent (s : DhtNode) (_ : Dht.Event) (t : DhtNode) : Prop := t.sent = s.sent

/-- `lookup_route`, undisturbed, where cache or store has an answer. -/
def resolving (s : DhtNode) (id : NodeId) (n : Nat) : List Dht.Event :=
  .start n (.routeCache id) :: List.replicate (if (s.dhtCache.get id).isSome then 1 else 2) (.advance n)

/-- What the store has, and nothing else in the cache, `lookup_route` finds at once and without asking anybody. -/
theorem stored_resolves {s : DhtNode} {id : NodeId} {d : Descriptor} (stored : s.kad.store.get id = some d)
    (cached : ∀ other, s.dhtCache.get id = some other → other = d) {n : Nat} (free : s.tasks.get n = none) :
    ∃ t, Run (Such (DhtNode.Step C) Silent) s (resolving s id n) t ∧ t.tasks.get n = some (.routed id (.ok d)) := by
  let once := s.put n (.routeCache id)
  have begun : Run (Such (DhtNode.Step C) Silent) s [.start n (.routeCache id)] once :=
    .single ⟨.start free (.lookupRoute id), rfl⟩
  cases known : s.dhtCache.get id with
  | some other =>
    obtain rfl := cached other known
    have hit : once.advance n (.routeCache id) = some (once.put n (.routed id (.ok other))) := by
      have here : once.dhtCache.get id = some other := known
      simp only [DhtNode.advance, here]
    rw [resolving, known]
    exact ⟨_, begun.snoc ⟨.advance (Table.get_insert_self ..) hit, rfl⟩, Table.get_insert_self ..⟩
  | none =>
    let twice := once.put n (.routeStore id)
    have missed : once.advance n (.routeCache id) = some twice := by
      have none : once.dhtCache.get id = none := known
      simp only [DhtNode.advance, none, twice]
    have found : twice.advance n (.routeStore id) =
        some ({ twice with dhtCache := twice.dhtCache.insert id d }.put n (.routed id (.ok d))) := by
      have here : twice.kad.store.get id = some d := stored
      simp only [DhtNode.advance, here]
    have asked := begun.snoc ⟨.advance (Table.get_insert_self ..) missed, rfl⟩
    rw [resolving, known]
    exact ⟨_, asked.snoc ⟨.advance (Table.get_insert_self ..) found, rfl⟩, Table.get_insert_self ..⟩

theorem keeps_itself (members : List (Member C)) : Parties.Keeps (DhtNode.conduct C)
    (fun addr node => ∃ m ∈ members, m.desc.dhtAddr = addr ∧ DhtNode.Itself C m.identity.nodeId node) fun _ => True where
  own _ _ _ _ _ kept moves := by
    obtain ⟨m, among, there, itself⟩ := kept
    exact ⟨⟨m, among, there, itself.step moves.2.1⟩, fun _ _ => trivial⟩
  arrival _ _ _ _ _ _ kept _ moves := by
    obtain ⟨m, among, there, itself⟩ := kept
    exact ⟨⟨m, among, there, itself.step moves.2.1⟩, fun _ _ => trivial⟩

theorem stays_stored (verifies : ∀ key msg, C.verify (C.verifyingKey key) msg (C.sign key msg) = true)
    {members : List (Member C)} {events later : List SwarmEvent} {s t : Swarm}
    (run : Run (Swarm.Step C) (Swarm.start members) events s) (more : Run (Swarm.Step C) s later t) {addr : SocketAddr}
    {node node' : DhtNode} (here : s.nodes.get addr = some node) (there : t.nodes.get addr = some node') {key : NodeId}
    (stored : (node.kad.store.get key).isSome) : (node'.kad.store.get key).isSome := by
  obtain ⟨last, same, moves⟩ := Parties.local_run (Swarm.keeps_manned verifies) (Swarm.all_manned verifies run) more here
  obtain rfl := Option.some.inj (there.symm.trans same)
  refine moves.invariant (fun node => (node.kad.store.get key).isSome) (fun _ _ _ stored move => ?_) stored
  obtain ⟨-, -, out, -, step, -⟩ := move
  exact step.stays_stored stored

/-- In a swarm, `send_once` draws a route of three different members and the target; at any later moment each drawn hop
resolves without asking anybody, to what the member has signed; and the node itself is among those that may be drawn. -/
theorem send_once_draws (verifies : ∀ key msg, C.verify (C.verifyingKey key) msg (C.sign key msg) = true)
    (members : List (Member C)) (apart : (members.map fun m => m.desc.dhtAddr).Nodup) {events between : List SwarmEvent}
    {s t : Swarm} (run : Run (Swarm.Step C) (Swarm.start members) events s) (meanwhile : Run (Swarm.Step C) s between t)
    {own : Member C} (among : own ∈ members) {dht dht' : DhtNode} (here : s.nodes.get own.desc.dhtAddr = some dht)
    (there : t.nodes.get own.desc.dhtAddr = some dht') (target : NodeId)
    (enough : 3 ≤ (((routePeers dht.kad.rt dht'.kad.store).map Prod.fst).filter fun id => id ≠ target).length) :
    (∀ i j k, ∃ hops, sendOnceRoute (routePeers dht.kad.rt dht'.kad.store) target i j k = .ok (hops ++ [target]) ∧
      hops.length = 3 ∧ (hops ++ [target]).Nodup ∧ ∀ id ∈ hops, ∀ later u node, Run (Swarm.Step C) t later u →
        u.nodes.get own.desc.dhtAddr = some node → ∃ m ∈ members, m.identity.nodeId = id ∧
          ((∀ d, node.dhtCache.get id = some d → d = m.desc) → ∀ n, node.tasks.get n = none →
            ∃ node', Run (Such (DhtNode.Step C) Silent) node (resolving node id n) node' ∧
              node'.tasks.get n = some (.routed id (.ok m.desc)))) ∧
    (target ≠ own.identity.nodeId → ∃ i j k route,
      sendOnceRoute (routePeers dht.kad.rt dht'.kad.store) target i j k = .ok route ∧ own.identity.nodeId ∈ route) := by
  have all := run.trans meanwhile
  have manned := (Swarm.all_manned verifies run).nodes _ _ here
  have begins : (Swarm.start members).All (fun addr node => ∃ m ∈ members, m.desc.dhtAddr = addr ∧
      DhtNode.Itself C m.identity.nodeId node) fun _ => True := by
    refine ⟨fun addr node started => ?_, fun _ _ => trivial⟩
    obtain ⟨m, listed, rfl, rfl⟩ := Swarm.start_get started
    exact ⟨m, listed, rfl, DhtNode.itself_spawn (m.signed.verified_of verifies) m.signed⟩
  have keeps {events : List SwarmEvent} {s : Swarm} {node : DhtNode} (run : Run (Swarm.Step C) (Swarm.start members) events s)
      (here : s.nodes.get own.desc.dhtAddr = some node) : DhtNode.Itself C own.identity.nodeId node := by
    obtain ⟨m, listed, same, itself⟩ := ((keeps_itself members).run begins run).nodes _ _ here
    obtain rfl : m = own := List.inj_on_of_nodup_map apart listed among same
    exact itself
  have before := keeps run here
  have after := keeps all there
  set peers := routePeers dht.kad.rt dht'.kad.store with named
  set pool := (peers.map Prod.fst).filter fun id => id ≠ target with pooled
  have distinct : pool.Nodup :=
    ((Dht.ids_routePeers _ _).nodup manned.arranged.ascending.nodup).filter _
  have drawn (i j k : Nat) : sendOnceRoute peers target i j k = .ok (drawHops pool [i, j, k] ++ [target]) :=
    if_neg (Nat.not_lt.mpr enough)
  refine ⟨fun i j k => ⟨_, drawn i j k, length_drawHops enough, ?_, fun id member => ?_⟩, fun other => ?_⟩
  · refine List.nodup_append.mpr ⟨nodup_drawHops distinct _, List.nodup_singleton _, fun id member _ last => ?_⟩
    have kept := drawHops_subset _ _ member
    rw [List.mem_singleton.mp last]
    simpa using (List.mem_filter.mp kept).2
  · obtain ⟨peer, present, rfl⟩ := List.mem_map.mp (List.mem_filter.mp (drawHops_subset _ _ member)).1
    obtain ⟨c, -, d, stored, rfl⟩ := Dht.mem_routePeers.mp present
    intro later u node more now
    have still := stays_stored verifies all more there now (Option.isSome_iff_exists.mpr ⟨_, stored⟩)
    obtain ⟨d, kept⟩ := Option.isSome_iff_exists.mp still
    obtain ⟨m, listed, id, rfl⟩ := (Swarm.guided verifies members apart (all.trans more) _ node now).stored _ _ kept
    exact ⟨m, listed, id, fun cached n free => stored_resolves kept cached free⟩
  -- The node's own contact and descriptor are in table and store, so nothing keeps it out of its route.
  · obtain ⟨d, stored⟩ := Option.isSome_iff_exists.mp after.stored
    have ownId : (Dht.Contact.fromDesc dht.kad.ownDesc).nodeId = own.identity.nodeId := before.arranged.named.trans before.id
    have known : own.identity.nodeId ∈ pool := by
      refine List.mem_filter.mpr ⟨List.mem_map.mpr ⟨(own.identity.nodeId, d.cellAddr, d.linkPub), ?_, rfl⟩, ?_⟩
      · exact Dht.mem_routePeers.mpr ⟨_, before.arranged.own, d, by rw [ownId, stored], by rw [ownId]⟩
      · simpa using other.symm
    obtain ⟨i, below, at_i⟩ := List.getElem_of_mem known
    refine ⟨i, 0, 0, _, drawn i 0 0, List.mem_append_left _ ?_⟩
    rw [drawHops, Nat.mod_eq_of_lt below, List.getElem?_eq_getElem below, at_i]
    exact List.mem_cons_self

namespace Transparent

open Nbf.Crypto.Transparent Nbf.Dht.Transparent

def thirdMember : Member crates := ⟨identity 40, descriptor 40 9102, descriptor_signed 40 9102⟩

def threeMembers : List (Member crates) := [nearMember, farMember, thirdMember]

theorem threeMembers_apart : (threeMembers.map fun m => m.desc.dhtAddr).Nodup := by decide

def toldOf (kad : Dht.Kademlia) (m : Member crates) : Dht.Kademlia := (kad.handle m.desc.dhtAddr (.store m.desc)).1

theorem toldOf_knows {kad : Dht.Kademlia} (arranged : kad.Arranged) (table : ∀ c ∈ kad.rt, c.Vouched (Dht.Own threeMembers))
    {m : Member crates} (among : m ∈ threeMembers) : (toldOf kad m).Arranged ∧
      (∀ c ∈ (toldOf kad m).rt, c.Vouched (Dht.Own threeMembers)) ∧
      Dht.ids (toldOf kad m).rt = Dht.ids kad.rt ∪ {m.desc.nodeId} ∧
      (toldOf kad m).store = kad.store.insert m.desc.nodeId m.desc := by
  have single : ∀ c ∈ [Dht.Contact.fromDesc m.desc], c.Vouched (Dht.Own threeMembers) := fun c member =>
    ⟨m.desc, ⟨m, among, rfl⟩, List.mem_singleton.mp member⟩
  obtain ⟨all, -⟩ := Swarm.room (arranged.keep m.desc) (by decide) table single
  exact ⟨(arranged.keep m.desc).tryMerge _, Dht.Kademlia.vouched_tryMerge table single, all, rfl⟩

def toldOfBoth : DhtNode :=
  { DhtNode.spawn nearMember.identity nearMember.desc [] with
    kad := toldOf (toldOf (DhtNode.spawn nearMember.identity nearMember.desc []).kad farMember) thirdMember }

theorem both_introduced : ∃ events t, Run (Swarm.Step crates) (Swarm.start threeMembers) events t ∧
    t.nodes.get nearMember.desc.dhtAddr = some toldOfBoth := by
  have near := Swarm.start_present threeMembers_apart (m := nearMember) (by simp [threeMembers])
  have far := Swarm.start_present threeMembers_apart (m := farMember) (by simp [threeMembers])
  have third := Swarm.start_present threeMembers_apart (m := thirdMember) (by simp [threeMembers])
  obtain ⟨first, s, run, -, here, others⟩ := introduced far rfl rfl near (by decide)
  have waits := (others thirdMember.desc.dhtAddr (by decide) (by decide)).trans third
  obtain ⟨second, t, later, -, here, -⟩ := introduced waits rfl rfl here (by decide)
  exact ⟨_, t, run.trans later, here⟩

def stranger : NodeId := .replicate 20 77

theorem toldOfBoth_peers :
    3 ≤ (((routePeers toldOfBoth.kad.rt toldOfBoth.kad.store).map Prod.fst).filter fun id => id ≠ stranger).length := by
  have arranged : (DhtNode.spawn nearMember.identity nearMember.desc []).kad.Arranged :=
    DhtNode.arranged_spawn nearMember.signed
  have table : ∀ c ∈ (DhtNode.spawn nearMember.identity nearMember.desc []).kad.rt, c.Vouched (Dht.Own threeMembers) :=
    fun c member => ⟨nearMember.desc, ⟨nearMember, by simp [threeMembers], rfl⟩, List.mem_singleton.mp member⟩
  obtain ⟨arranged, table, ids, store⟩ := toldOf_knows arranged table (m := farMember) (by simp [threeMembers])
  obtain ⟨-, -, ids', store'⟩ := toldOf_knows arranged table (m := thirdMember) (by simp [threeMembers])
  have known (m : Member crates) (among : m ∈ threeMembers) :
      m.desc.nodeId ∈ ((routePeers toldOfBoth.kad.rt toldOfBoth.kad.store).map Prod.fst).filter fun id => id ≠ stranger := by
    have there : m.desc.nodeId ∈ Dht.ids toldOfBoth.kad.rt := by
      rw [toldOfBoth, ids', ids]
      simp only [threeMembers, List.mem_cons, List.not_mem_nil, or_false] at among
      rcases among with rfl | rfl | rfl <;> decide
    have stored : (toldOfBoth.kad.store.get m.desc.nodeId).isSome := by
      rw [toldOfBoth, store', store]
      simp only [threeMembers, List.mem_cons, List.not_mem_nil, or_false] at among
      rcases among with rfl | rfl | rfl <;> rfl
    have other : m.desc.nodeId ≠ stranger := by
      simp only [threeMembers, List.mem_cons, List.not_mem_nil, or_false] at among
      rcases among with rfl | rfl | rfl <;> decide
    obtain ⟨c, member, named⟩ := Dht.mem_ids.mp there
    obtain ⟨d, here⟩ := Option.isSome_iff_exists.mp stored
    have peer : m.desc.nodeId ∈ (routePeers toldOfBoth.kad.rt toldOfBoth.kad.store).map Prod.fst :=
      List.mem_map.mpr ⟨_, Dht.mem_routePeers.mpr ⟨c, member, d, named ▸ here, rfl⟩, named⟩
    exact List.mem_filter.mpr ⟨peer, decide_eq_true other⟩
  have distinct : (threeMembers.map fun m => m.desc.nodeId).Nodup := by decide
  refine (List.subperm_of_subset distinct fun id member => ?_).length_le
  obtain ⟨m, among, rfl⟩ := List.mem_map.mp member
  exact known m among

theorem near_draws : ∃ (events : List SwarmEvent) (t : Swarm) (route : List NodeId),
    Run (Swarm.Step crates) (Swarm.start threeMembers) events t ∧
      sendOnceRoute (routePeers toldOfBoth.kad.rt toldOfBoth.kad.store) stranger 0 5 9 = .ok route ∧ route.Nodup ∧
      route.length = 4 ∧ ∀ id ∈ route, id ≠ stranger → ∃ m ∈ threeMembers, m.identity.nodeId = id ∧
        ∃ node, Run (Such (DhtNode.Step crates) Silent) toldOfBoth (resolving toldOfBoth id 0) node ∧
          node.tasks.get 0 = some (.routed id (.ok m.desc)) := by
  obtain ⟨events, t, run, here⟩ := both_introduced
  obtain ⟨drawn, -⟩ := send_once_draws lawful.verify_sign threeMembers threeMembers_apart run (.nil t)
    (by simp [threeMembers] : nearMember ∈ threeMembers) here here stranger toldOfBoth_peers
  obtain ⟨hops, chosen, three, distinct, resolves⟩ := drawn 0 5 9
  refine ⟨events, t, _, run, chosen, distinct, by rw [List.length_append, three]; rfl, fun id member other => ?_⟩
  have hop : id ∈ hops := (List.mem_append.mp member).resolve_right fun last => other (List.mem_singleton.mp last)
  obtain ⟨m, among, named, found⟩ := resolves id hop [] t toldOfBoth (.nil t) here
  exact ⟨m, among, named, found (fun _ none => by cases none) 0 rfl⟩

def threeNet : Network crates where
  nodes := ((Table.empty.insert (localhost 9100) (node 1 0)).insert (localhost 9101) (node 20 0)).insert (localhost 9102) (node 40 0)
  wire := []
  notices := []

theorem three_housed : Housed threeMembers threeNet where
  listens := by
    simp only [threeMembers, List.forall_mem_cons]
    exact ⟨⟨node 1 0, rfl, rfl⟩, ⟨node 20 0, rfl, rfl⟩, ⟨node 40 0, rfl, rfl⟩, by simp⟩
  apart := by decide
  generated := by
    simp only [threeMembers, List.forall_mem_cons]
    exact ⟨identity_generated 1, identity_generated 20, identity_generated 40, by simp⟩
  inner := by
    simp only [threeMembers, List.forall_mem_cons]
    exact ⟨by decide, by decide, by decide, by simp⟩

theorem acts_silently {s : Swarm} {addr : SocketAddr} {node node' : DhtNode} {events : List Dht.Event}
    (run : Run (Such (DhtNode.Step crates) Silent) node events node') (fair : ∀ event ∈ events, Dht.Fair (.own event))
    (present : s.nodes.get addr = some node) :
    ∃ t, Run (Swarm.Step crates) s (events.map (.act addr)) t ∧ t.nodes.get addr = some node' := by
  induction run with
  | nil => exact ⟨s, .nil s, present⟩
  | @snoc mid next events event _ last ih =>
    rw [List.forall_mem_append, List.forall_mem_singleton] at fair
    obtain ⟨t, sofar, here⟩ := ih fair.1
    obtain ⟨step, silent⟩ := last
    rw [List.map_append]
    exact ⟨_, sofar.snoc (Swarm.acts here step fair.2 (silent.trans (List.append_nil _).symm)), Table.get_insert_self ..⟩

theorem far_circuit : ∃ (events : List SwarmEvent) (t : Swarm) (start : Node crates) (effects : List Effect) (built : BuiltHeader)
    (labels : List Packet) (final : Network crates), Run (Swarm.Step crates) (Swarm.start threeMembers) events t ∧
      Run Network.Step (threeNet.update (localhost 9100) start effects []) labels final ∧
      BuildReturns final (localhost 9100) 0 ⟨1, built⟩ := by
  obtain ⟨first, s, run, present⟩ := both_introduced
  have stored : toldOfBoth.kad.store.get farMember.desc.nodeId = some farMember.desc := rfl
  obtain ⟨dht, looks, found⟩ := stored_resolves (C := crates) stored (fun _ none => by cases none) (n := 0) rfl
  obtain ⟨t, later, here⟩ := acts_silently looks (by simp [resolving, Dht.Fair]) present
  let lookup : Lookup := fun id => if id = farMember.desc.nodeId then .ok farMember.desc else .error .timeout
  have returned (id : NodeId) (d : Descriptor) (answer : lookup id = .ok d) :
      ∃ i, dht.tasks.get i = some (.routed id (.ok d)) := by
    simp only [lookup] at answer
    split at answer
    next same =>
      obtain rfl := Except.ok.inj answer
      exact ⟨0, same ▸ found⟩
    next => cases answer
  have idle : ∀ d ∈ [farMember.desc], ∀ node, threeNet.nodes.get d.cellAddr = some node →
      node.circuits = .empty ∧ node.createFrags = .empty := by
    intro d member node at_far
    obtain rfl := List.mem_singleton.mp member
    obtain rfl := Option.some.inj at_far
    exact ⟨rfl, rfl⟩
  have resolved : resolveRoute lookup [farMember.desc.nodeId] = .ok [farMember.desc] := by
    simp only [resolveRoute, lookup, if_true]
    rfl
  have distinct : ((nearMember.desc :: [farMember.desc]).map Descriptor.nodeId).Nodup := by decide
  have quiet : (nearMember.desc.cellAddr, Effect.resolve 0) ∉ threeNet.notices := by simp [threeNet]
  obtain ⟨hops, start, effects, built, final, labels, same, -, reached, -, -, -, returns⟩ :=
    resolved_circuit lawful threeMembers threeMembers_apart (run.trans later)
      (by simp [threeMembers] : nearMember ∈ threeMembers) here returned three_housed rfl
      (rfl : threeNet.nodes.get nearMember.desc.cellAddr = some (node 1 0)) resolved (by simp)
      (by decide : 1 ≤ maxHops) distinct idle 0 quiet
  have alone : hops.dropLast = [] := by
    obtain ⟨hop, rfl⟩ := List.length_eq_one_iff.mp same.length_eq
    rfl
  exact ⟨_, t, start, effects, built, labels, final, run.trans later, reached, returns.mpr (by simp [alone])⟩

end Transparent
end Nbf.Net

import Nbf.Crypto.SphinxChain
import Nbf.Dht.Lookup
import Nbf.Net.Link
import Nbf.Net.PlainNoise
import Nbf.Net.Reassembly

/-! How a relay passes a CREATE on (`handle_create`, `lookup_route`).

The layer holds the link key of the next hop, but the relay looks it up again.
The entry is stored before anything is sent, and the results of the sends are
dropped.
-/

set_option autoImplicit false

namespace Nbf.Net

open Nbf.Library Nbf.Crypto

variable {C : Crates}

/-! ## The link key of the next hop -/

/-- Where a node looks for a descriptor: its cache, its store, and what a lookup in the DHT returns. -/
structure DhtView where
  dhtCache : Table NodeId Descriptor
  store : Table NodeId Descriptor
  found : NodeId → Except Dht.DhtError (Option Descriptor)

namespace DhtView

def lookupRoute (view : DhtView) (target : NodeId) : Except NetError Descriptor × Table NodeId Descriptor :=
  match view.dhtCache.get target with
  | some d => (.ok d, view.dhtCache)
  | none =>
    match view.store.get target with
    | some d => (.ok d, view.dhtCache.insert target d)
    | none =>
      match view.found target with
      | .ok (some d) => (.ok d, view.dhtCache.insert target d)
      | _ => (.error .timeout, view.dhtCache)

def lookup (view : DhtView) : Lookup := fun target => (view.lookupRoute target).1

def first? (view : DhtView) (target : NodeId) : Option Descriptor :=
  (view.dhtCache.get target).or ((view.store.get target).or (view.found target).toOption.join)

/-- The node knows the id with this link key; to be unknown is to have the all-zero key. -/
def Names (view : DhtView) (target : NodeId) (key : Octets 32) : Prop :=
  (∃ d, view.first? target = some d ∧ d.linkPub = key) ∨ (view.first? target = none ∧ key = .zeros 32)

theorem lookup_eq (view : DhtView) (target : NodeId) :
    view.lookup target = match view.first? target with
      | some d => .ok d
      | none => .error .timeout := by
  unfold lookup lookupRoute first?
  cases view.dhtCache.get target with
  | some d => rfl
  | none =>
    cases view.store.get target with
    | some d => rfl
    | none =>
      cases view.found target with
      | error err => rfl
      | ok result => cases result <;> rfl

/-- The last step of the task that `lookup_route` is, wherever it ends, leaves the cache and the answer so. -/
theorem lookupRoute_task (s : Dht.DhtNode) (target : NodeId) (result : Option Descriptor) :
    let view : DhtView := ⟨s.dhtCache, s.kad.store, fun _ => .ok result⟩
    ∃ task ∈ [Dht.Task.routeCache target, .routeStore target, .found .route target result],
      s.Advance task { s with dhtCache := (view.lookupRoute target).2 } (.routed target (view.lookupRoute target).1) := by
  dsimp only [lookupRoute]
  cases cached : s.dhtCache.get target with
  | some d => exact ⟨.routeCache target, by simp, .cached cached⟩
  | none =>
    cases stored : s.kad.store.get target with
    | some d => exact ⟨.routeStore target, by simp, .stored stored⟩
    | none =>
      refine ⟨.found .route target result, by simp, ?_⟩
      cases result with
      | some d => exact .found
      | none => exact .notFound

end DhtView

theorem Node.completes_of {node : Node C} {cell : Cell} {header : List UInt8} {outcome : ProcessOutcome}
    (complete : (node.gather cell).1 = some header) (peeled : processHeader C node.identity header = .ok outcome) :
    node.completes cell = some outcome := by
  simp only [completes, complete, peeled]

/-- A relay registers the link key that it has looked up, then sends the fragments of the next header. -/
theorem Node.handleCreate_relay {node : Node C} {cell : Cell} {tag : Octets 16} {kFwd kBwd : Octets 32} {nextId : NodeId}
    {nextAddr : SocketAddr} {newHeader : List UInt8}
    (relays : node.completes cell = some (.relay tag kFwd kBwd nextId nextAddr newHeader)) (lookup : Lookup) (src : SocketAddr) :
    ∃ key, (node.handleCreate lookup src cell).2 = .ensurePeerLink nextAddr key ::
        ((fragment newHeader).map fun frag => .sendCell nextAddr ⟨node.nextCid, .create, 0, frag⟩) ∧
      key = match lookup nextId with
        | .ok desc => desc.linkPub
        | .error _ => .zeros 32 := by
  refine ⟨_, ?_, rfl⟩
  unfold completes at relays
  unfold handleCreate
  generalize node.gather cell = gathered at relays ⊢
  obtain ⟨full, frags⟩ := gathered
  cases full with
  | none => cases relays
  | some header =>
    dsimp only at relays ⊢
    cases peeled : processHeader C node.identity header with
    | panic | error => simp only [peeled, reduceCtorEq] at relays
    | ok outcome =>
      simp only [peeled, Option.some.injEq] at relays
      subst relays
      rfl

theorem DhtView.names_iff (view : DhtView) (target : NodeId) (key : Octets 32) :
    (match view.lookup target with
      | .ok desc => desc.linkPub
      | .error _ => .zeros 32) = key ↔ view.Names target key := by
  rw [view.lookup_eq, Names]
  cases view.first? target with
  | some d => simp
  | none => simp [eq_comm]

/-- The link key that a relay registers for the next hop is the one the origin has sealed for it
exactly if the relay's own view has that key. -/
theorem registers_sealed_iff (laws : C.Lawful) (ids : List (NodeIdentity C)) (route : List Descriptor)
    (honest : HonestRoute ids route) (tag : Octets 16) (rng : C.Rng) :
    ∃ built, (buildHeader C route tag rng).1 = .ok built ∧
      ∀ i id next, ids[i]? = some id → route[i + 1]? = some next →
        ∃ header slots layer behind kFwd kBwd newHeader, headerSeen C ids built.header i = some header ∧
          header = encodeHeader tag slots (nestLayers C tag (layer :: behind)) ∧ layer.nextLinkPub = next.linkPub ∧
          processHeader C id header = .ok (.relay tag kFwd kBwd next.nodeId next.cellAddr newHeader) ∧
          ∀ (node : Node C) (view : DhtView) (src : SocketAddr) (cell : Cell), node.identity = id →
            (node.gather cell).1 = some header →
            ∃ key, (node.handleCreate view.lookup src cell).2 = .ensurePeerLink next.cellAddr key ::
                ((fragment newHeader).map fun frag => .sendCell next.cellAddr ⟨node.nextCid, .create, 0, frag⟩) ∧
              (key = layer.nextLinkPub ↔ view.Names next.nodeId next.linkPub) := by
  obtain ⟨plan, built, ok, descs, valid, header, -⟩ := buildHeader_plan laws honest tag rng
  refine ⟨built, ok, fun i id next at_i next_i => ?_⟩
  obtain ⟨hop, hop_i, pub, decap⟩ := forall₂_getElem? valid.peels at_i
  rw [← descs, List.getElem?_map, Option.map_eq_some_iff] at next_i
  obtain ⟨nextHop, nextHop_i, rfl⟩ := next_i
  obtain ⟨acc, seenHeader, seen, peel⟩ := Plan.peel_at laws tag valid hop_i
  obtain ⟨slots, layer, behind, shape, holds⟩ := Plan.layer_at laws tag valid hop_i nextHop_i seen
  have peeled := peel id pub hop.ssKem decap
  rw [drop_eq_cons nextHop_i, Plan.outcome] at peeled
  refine ⟨seenHeader, slots, layer, behind, _, _, _, header ▸ seen, shape, holds, peeled, ?_⟩
  intro node view src cell mine complete
  obtain ⟨key, passed, looked⟩ := Node.handleCreate_relay (Node.completes_of complete (mine ▸ peeled)) view.lookup src
  refine ⟨key, passed, ?_⟩
  rw [looked, holds]
  exact view.names_iff nextHop.desc.nodeId nextHop.desc.linkPub

/-! ## Sends that fail -/

variable {S : Snow}

/-- A call of `send_cell` from its start to its return. The link does what else it has to do meanwhile. -/
def Link.Call (l : Link S) (addr : SocketAddr) (cell : Cell) (result : Checked NetError Unit) (l' : Link S) : Prop :=
  ∃ i events, Run Link.Step l (.sendCell i addr cell :: events) l' ∧ l'.tasks.get i = some (.done result)

/-- A handler does to the outside what is left of its effects, and drops these errors. -/
inductive Performs : Node C → Link S → List Effect → List NetError → Node C → Link S → Prop where
  | done (node : Node C) (l : Link S) : Performs node l [] [] node l
  | register {node node' : Node C} {l l' : Link S} {addr : SocketAddr} {key : Octets 32} {rest : List Effect}
      {errors : List NetError} : Performs node (l.setPeerStatic addr key) rest errors node' l' →
      Performs node l (.ensurePeerLink addr key :: rest) errors node' l'
  | sent {node node' : Node C} {l l₁ l' : Link S} {dst : SocketAddr} {cell : Cell} {rest : List Effect}
      {errors : List NetError} : l.Call dst cell (.ok ()) l₁ → Performs node l₁ rest errors node' l' →
      Performs node l (.sendCell dst cell :: rest) errors node' l'
  /-- `let _ = send_cell(..)`: the next send follows. -/
  | failed {node node' : Node C} {l l₁ l' : Link S} {dst : SocketAddr} {cell : Cell} {err : NetError} {rest : List Effect}
      {errors : List NetError} : l.Call dst cell (.error err) l₁ → Performs node l₁ rest errors node' l' →
      Performs node l (.sendCell dst cell :: rest) (err :: errors) node' l'
  /-- While a send waits, other tasks run; those that change the circuits are left out. -/
  | meanwhile {node node₁ node' : Node C} {l l' : Link S} {effects : List Effect} {errors : List NetError} :
      node₁.circuits = node.circuits → Performs node₁ l effects errors node' l' → Performs node l effects errors node' l'

/-- Whatever comes of the sends, nothing is taken back. -/
theorem Performs.circuits {node node' : Node C} {l l' : Link S} {effects : List Effect} {errors : List NetError}
    (performs : Performs node l effects errors node' l') : node'.circuits = node.circuits := by
  induction performs with
  | done => rfl
  | register _ ih => exact ih
  | sent _ _ ih => exact ih
  | failed _ _ ih => exact ih
  | meanwhile same _ ih => exact ih.trans same

/-- A CREATE whose forwarding fails leaves the circuits as they were exactly if they had the very entry
that it stores. -/
theorem forwarding_undone_iff {node node' : Node C} {lookup : Lookup} {src : SocketAddr} {cell : Cell}
    {tag : Octets 16} {kFwd kBwd : Octets 32} {nextId : NodeId} {nextAddr : SocketAddr} {newHeader : List UInt8}
    {l l' : Link S} {errors : List NetError}
    (relays : node.completes cell = some (.relay tag kFwd kBwd nextId nextAddr newHeader))
    (performs : Performs (node.handleCreate lookup src cell).1 l (node.handleCreate lookup src cell).2 errors node' l') :
    errors ≠ [] → (node'.circuits = node.circuits ↔
      node.circuits.get cell.cid = some (.relay tag kFwd kBwd ⟨cell.cid, src⟩ ⟨node.nextCid, nextAddr⟩ 0)) := by
  intro _
  have stored := node.handleCreate_circuits lookup src cell
  rw [relays, ← performs.circuits] at stored
  rw [stored]
  constructor
  · intro same
    rw [← same, Table.get_insert_self]
    rfl
  · intro had
    exact Table.insert_get_self _ had

structure Link.Unopened (l : Link S) (addr : SocketAddr) : Prop where
  noSession : l.sessions.get addr = none
  noAttempt : l.hsInflight.get addr = none
  known : ∃ key, l.peerStatics.get addr = some key
  room : ∃ n, ∀ i, n ≤ i → l.tasks.get i = none

theorem Link.Unopened.refused (laws : S.Lawful) {l : Link S} {addr : SocketAddr} (unopened : l.Unopened addr)
    (eph : S.Ephemeral) (cell : Cell) (reason : String) :
    ∃ l', l.Call addr cell (.error (.io reason)) l' ∧ l'.Unopened addr := by
  obtain ⟨key, known⟩ := unopened.known
  obtain ⟨n, room⟩ := unopened.room
  obtain ⟨msg, st, made⟩ := laws.initiates l.localStatic key eph
  have called : l.Step (.sendCell n addr cell) (l.put n (.check addr cell)) :=
    ⟨{}, by simp only [step, room n (Nat.le_refl n)]⟩
  have checked : Link.Step (l.put n (.check addr cell)) (.step n eph) (l.put n (.key addr cell)) :=
    ⟨{}, by simp only [step, put, Table.get_insert_self, Option.bind_some, stepTask, unopened.noSession, Table.insert_insert]⟩
  have keyed : Link.Step (l.put n (.key addr cell)) (.step n eph) (l.put n (.start addr cell key)) :=
    ⟨{}, by simp only [step, put, Table.get_insert_self, Option.bind_some, stepTask, known, Table.insert_insert]⟩
  have nonempty : 0 < (hsFragments msg).length := by
    simp only [hsFragments, List.length_map, List.length_range]
    omega
  have refused : Link.Step (l.put n (.start addr cell key)) (.refuse n eph 0 reason) (l.put n (.done (.error (.io reason)))) := by
    refine ⟨{}, ?_⟩
    simp only [step, put, Table.get_insert_self, Option.bind_some, refuseTask, unopened.noAttempt, made, if_pos nonempty,
      List.take_zero, List.map_nil, Table.insert_insert]
  refine ⟨_, ⟨n, _, (((Run.single refused).cons keyed).cons checked).cons called, Table.get_insert_self ..⟩, ?_⟩
  refine ⟨unopened.noSession, unopened.noAttempt, ⟨key, known⟩, n + 1, fun i le => ?_⟩
  exact (Table.get_insert_of_ne _ _ (by omega)).trans (room i (by omega))

theorem Performs.refused (laws : S.Lawful) (node : Node C) {l : Link S} {addr : SocketAddr} (unopened : l.Unopened addr)
    (eph : S.Ephemeral) (reason : String) (cells : List Cell) :
    ∃ l', Performs node l (cells.map (.sendCell addr)) (cells.map fun _ => .io reason) node l' := by
  induction cells generalizing l with
  | nil => exact ⟨l, .done node l⟩
  | cons cell cells ih =>
    obtain ⟨l₁, call, unopened₁⟩ := unopened.refused laws eph cell reason
    obtain ⟨l', rest⟩ := ih unopened₁
    exact ⟨l', .failed call rest⟩

theorem Node.forwarding_refused (laws : S.Lawful) {node : Node C} {cell : Cell} {tag : Octets 16} {kFwd kBwd : Octets 32}
    {nextId : NodeId} {nextAddr : SocketAddr} {newHeader : List UInt8}
    (relays : node.completes cell = some (.relay tag kFwd kBwd nextId nextAddr newHeader)) (numbered : Numbered newHeader)
    {l : Link S} (unopened : ∀ key, (l.setPeerStatic nextAddr key).Unopened nextAddr) (eph : S.Ephemeral) (reason : String)
    (lookup : Lookup) (src : SocketAddr) :
    ∃ errors node' l', errors ≠ [] ∧
      Performs (node.handleCreate lookup src cell).1 l (node.handleCreate lookup src cell).2 errors node' l' := by
  obtain ⟨key, passed, -⟩ := handleCreate_relay relays lookup src
  obtain ⟨l', performs⟩ := Performs.refused laws (node.handleCreate lookup src cell).1 (unopened key) eph reason
    ((fragment newHeader).map fun frag => ⟨node.nextCid, .create, 0, frag⟩)
  rw [List.map_map] at performs
  rw [passed]
  refine ⟨_, _, l', ?_, .register performs⟩
  have some := fragCount_pos numbered
  rw [← length_fragment] at some
  simpa using List.length_pos_iff.mp some

theorem Node.exists_gathers (node : Node C) {header : List UInt8} (numbered : Numbered header) (cid : UInt32) :
    ∃ frags frag, (({ node with createFrags := frags } : Node C).gather ⟨cid, .create, 0, frag⟩).1 = some header := by
  obtain ⟨j, count⟩ := Nat.exists_eq_add_one_of_ne_zero (fragCount_pos numbered).ne'
  have lt : j < (fragCount header).toNat := by omega
  obtain ⟨frag, frag_j⟩ : ∃ frag, (fragment header)[j]? = some frag := ⟨_, getElem?_fragment lt⟩
  let frags := node.createFrags.insert cid (held header (Finset.range j))
  have buffer : (frags.get cid).getD (.fresh (fragCount header)) = held header (Finset.range j) := by
    rw [Table.get_insert_self, Option.getD_some]
  have gathered := gather_fragment { node with createFrags := frags } numbered cid lt buffer frag_j
  rw [if_pos count.symm] at gathered
  exact ⟨frags, frag, by rw [gathered]⟩

namespace Transparent

open Nbf.Crypto.Transparent

def blind : DhtView := ⟨.empty, .empty, fun _ => .ok none⟩

def told : DhtView := { blind with store := .insert .empty (descriptor 20 9101).nodeId (descriptor 20 9101) }

theorem pairHeader_numbered : Numbered pairHeader := by
  simp [Numbered, pair_peels.1, chunkLen, cellData, cellLen, cellHdr]

theorem told_registers_sealed : ∃ (header : List UInt8) (node : Node crates) (cell : Cell) (sends : List Effect),
    headerSeen crates pairIds pairHeader 0 = some header ∧ (node.gather cell).1 = some header ∧
    (node.handleCreate told.lookup (localhost 9200) cell).2 =
      .ensurePeerLink (localhost 9101) (descriptor 20 9101).linkPub :: sends := by
  obtain ⟨built, ok, hops⟩ := registers_sealed_iff lawful pairIds pairRoute pair_honest (.zeros 16) (7 : UInt8)
  have same : pairHeader = built.header := by rw [pairHeader, ok]
  obtain ⟨header, slots, layer, behind, kFwd, kBwd, newHeader, seen, -, holds, -, registers⟩ :=
    hops 0 (identity 1) (descriptor 20 9101) rfl rfl
  have first : header = pairHeader := by
    rw [same]
    exact (Option.some.inj seen).symm
  obtain ⟨frags, frag, complete⟩ := (Node.spawn crates (1 : UInt8)).exists_gathers (first ▸ pairHeader_numbered) 1
  obtain ⟨key, passed, iff⟩ := registers _ told (localhost 9200) _ rfl complete
  have known : told.first? (descriptor 20 9101).nodeId = some (descriptor 20 9101) := by
    simp only [DhtView.first?, told, blind, Table.get_empty, Option.none_or, Table.get_insert_self, Option.some_or]
  have sealed : key = layer.nextLinkPub := iff.mpr (.inl ⟨descriptor 20 9101, known, rfl⟩)
  exact ⟨header, _, _, _, same ▸ seen, complete, by rw [passed, sealed, holds]; rfl⟩

/-- Without a descriptor of the next hop, the all-zero key is registered in place of the sealed one. -/
theorem blind_registers_zeros : ∃ (node : Node crates) (cell : Cell) (sends : List Effect),
    node.identity = identity 1 ∧ pairRoute[1]? = some (descriptor 20 9101) ∧
    headerSeen crates pairIds pairHeader 0 = some pairHeader ∧ (node.gather cell).1 = some pairHeader ∧
    (node.handleCreate blind.lookup (localhost 9200) cell).2 = .ensurePeerLink (localhost 9101) (.zeros 32) :: sends ∧
    (descriptor 20 9101).linkPub ≠ .zeros 32 := by
  obtain ⟨-, kFwd, kBwd, nextId, newHeader, peeled⟩ := pair_peels
  obtain ⟨frags, frag, complete⟩ := (Node.spawn crates (1 : UInt8)).exists_gathers pairHeader_numbered 1
  obtain ⟨key, passed, looked⟩ := Node.handleCreate_relay (Node.completes_of complete peeled) blind.lookup (localhost 9200)
  have unknown : key = .zeros 32 := looked.trans ((blind.names_iff nextId (.zeros 32)).mpr (.inr ⟨rfl, rfl⟩))
  exact ⟨_, _, _, rfl, rfl, rfl, complete, unknown ▸ passed, by decide⟩

theorem unopened_bind (addr : SocketAddr) (key : Octets 32) :
    ((Link.bind PlainNoise.snow (.zeros 32)).setPeerStatic addr key).Unopened addr where
  noSession := rfl
  noAttempt := rfl
  known := ⟨key, Table.get_insert_self ..⟩
  room := ⟨0, fun _ _ => rfl⟩

theorem pair_refused {kFwd kBwd : Octets 32} {nextId : NodeId} {newHeader : List UInt8}
    (peeled : processHeader crates (identity 1) pairHeader =
      .ok (.relay (.zeros 16) kFwd kBwd nextId (localhost 9101) newHeader)) (circuits : Table UInt32 CircuitEntry) :
    ∃ (node node' : Node crates) (cell : Cell) (errors : List NetError) (l' : Link PlainNoise.snow),
      node.circuits = circuits ∧ node.nextCid = 1 ∧ cell.cid = 1 ∧ errors ≠ [] ∧
      node.completes cell = some (.relay (.zeros 16) kFwd kBwd nextId (localhost 9101) newHeader) ∧
      Performs (node.handleCreate blind.lookup (localhost 9200) cell).1 (Link.bind PlainNoise.snow (.zeros 32))
        (node.handleCreate blind.lookup (localhost 9200) cell).2 errors node' l' := by
  have numbered : Numbered newHeader := by
    obtain ⟨-, -, sized⟩ := processHeader_sized peeled
    have size := sized.size
    have few := hopCount_le pairHeader
    have room : chunkLen = 1268 := rfl
    generalize hopCount pairHeader = hops at size few
    simp only [Numbered, room]
    omega
  obtain ⟨frags, frag, complete⟩ :=
    Node.exists_gathers { Node.spawn crates (1 : UInt8) with circuits } pairHeader_numbered 1
  have relays := Node.completes_of complete peeled
  obtain ⟨errors, node', l', failed, performs⟩ := Node.forwarding_refused PlainNoise.lawful relays numbered
    (unopened_bind (localhost 9101)) (0 : UInt8) "" blind.lookup (localhost 9200)
  exact ⟨_, node', _, errors, l', rfl, rfl, rfl, failed, relays, performs⟩

/-- A relay that already has the entry. -/
theorem refused_again : ∃ (node node' : Node crates) (cell : Cell) (errors : List NetError) (l' : Link PlainNoise.snow),
    Performs (node.handleCreate blind.lookup (localhost 9200) cell).1 (Link.bind PlainNoise.snow (.zeros 32))
      (node.handleCreate blind.lookup (localhost 9200) cell).2 errors node' l' ∧
    errors ≠ [] ∧ node'.circuits = node.circuits := by
  obtain ⟨-, kFwd, kBwd, nextId, newHeader, peeled⟩ := pair_peels
  let entry : CircuitEntry := .relay (.zeros 16) kFwd kBwd ⟨1, localhost 9200⟩ ⟨1, localhost 9101⟩ 0
  obtain ⟨node, node', cell, errors, l', circuits, next, cid, failed, relays, performs⟩ :=
    pair_refused peeled (.insert .empty 1 entry)
  have had : node.circuits.get cell.cid =
      some (.relay (.zeros 16) kFwd kBwd ⟨cell.cid, localhost 9200⟩ ⟨node.nextCid, localhost 9101⟩ 0) := by
    rw [circuits, next, cid, Table.get_insert_self]
  exact ⟨node, node', cell, errors, l', performs, failed, (forwarding_undone_iff relays performs failed).mpr had⟩

/-- A relay without circuits is left with one that leads nowhere. -/
theorem refused_stays : ∃ (node node' : Node crates) (cell : Cell) (errors : List NetError) (l' : Link PlainNoise.snow)
    (kFwd kBwd : Octets 32) (nextId : NodeId) (newHeader : List UInt8),
    node.completes cell = some (.relay (.zeros 16) kFwd kBwd nextId (localhost 9101) newHeader) ∧
    Performs (node.handleCreate blind.lookup (localhost 9200) cell).1 (Link.bind PlainNoise.snow (.zeros 32))
      (node.handleCreate blind.lookup (localhost 9200) cell).2 errors node' l' ∧
    errors ≠ [] ∧ node.circuits = .empty ∧ node'.circuits ≠ node.circuits := by
  obtain ⟨-, kFwd, kBwd, nextId, newHeader, peeled⟩ := pair_peels
  obtain ⟨node, node', cell, errors, l', circuits, -, -, failed, relays, performs⟩ := pair_refused peeled .empty
  have stored := node.handleCreate_circuits blind.lookup (localhost 9200) cell
  rw [relays, ← performs.circuits] at stored
  refine ⟨node, node', cell, errors, l', kFwd, kBwd, nextId, newHeader, relays, performs, failed, circuits, ?_⟩
  intro same
  have none : node'.circuits.get cell.cid = none := by rw [same, circuits, Table.get_empty]
  rw [stored, Table.get_insert_self] at none
  cases none

end Transparent
end Nbf.Net

import Nbf.Dht.Addresses
import Nbf.Dht.Codec
import Nbf.Library.Parties

/-! The DHT nodes of a network, and the datagrams between them.

Every node runs its receive loop and its own tasks; datagrams are lost, doubled
and reordered as the network pleases, and late replies reach whoever waits under
their sender's address by then. Nobody else sends anything.
-/

set_option autoImplicit false

namespace Nbf.Dht

open Nbf.Library Nbf.Crypto Nbf.Net

/-! ## What is vouched for -/

section

variable (D : Descriptor → Prop)

def Contact.Vouched (c : Contact) : Prop := ∃ d, D d ∧ c = fromDesc d

structure RpcMsg.Vouched (msg : RpcMsg) : Prop where
  contacts : ∀ c ∈ msg.contacts, c.Vouched D
  descriptors : ∀ d ∈ msg.descriptors, D d

def Speaks (data : List UInt8) : Prop := ∃ msg : RpcMsg, msg.Vouched D ∧ msg.contacts.length ≤ k ∧ rpcEncode msg = .ok data

def Lookup.Vouched (l : Lookup) : Prop := (∀ c ∈ l.closestSeen, c.Vouched D) ∧ ∀ c ∈ l.batch, c.Vouched D

def Resume.Vouched : Resume → Prop
  | .lookup _ l => l.Vouched D
  | .calls _ todo => ∀ call ∈ todo, call.2.Vouched D ∧ call.2.IsRequest

def Task.Vouched : Task → Prop
  | .routeCache _ | .routeStore _ | .start _ _ _ => True
  | .lookup _ l => l.Vouched D
  | .calls todo => ∀ call ∈ todo, call.2.Vouched D ∧ call.2.IsRequest
  | .waiting _ _ resume => resume.Vouched D
  | .expired _ resume => resume.Vouched D
  | .merging contacts resume => (∀ c ∈ contacts, c.Vouched D) ∧ resume.Vouched D
  | .found _ _ result => ∀ d ∈ result, D d
  | .routed _ result => ∀ d, result = .ok d → D d

/-- All that a node has is vouched for: what it knows, what it has got and not taken, what its tasks hold. -/
structure DhtNode.Vouched (s : DhtNode) : Prop where
  own : D s.kad.ownDesc
  table : ∀ c ∈ s.kad.rt, c.Vouched D
  store : ∀ key d, s.kad.store.get key = some d → D d ∧ d.nodeId = key
  cache : ∀ key d, s.dhtCache.get key = some d → D d
  got : ∀ rx msg, s.channels.get rx = some (.got msg) → msg.Vouched D
  tasks : ∀ i task, s.tasks.get i = some task → task.Vouched D

end

variable {D : Descriptor → Prop} {C : Crates}

theorem Speaks.read {data : List UInt8} (speaks : Speaks D data) (accepted : ∀ d, D d → Accepted C d) {msg : RpcMsg}
    (decoded : rpcDecode C (recvFrom data) = .ok msg) : msg.Vouched D := by
  obtain ⟨written, vouched, few, encoded⟩ := speaks
  obtain ⟨bytes, same, read⟩ := rpcDecode_recvFrom (few.trans (by decide)) (rpcDecode_rpcEncode written (few.trans (by decide))
    fun d member => accepted d (vouched.descriptors d member))
  obtain rfl := Checked.ok.inj (encoded.symm.trans same)
  obtain rfl := Checked.ok.inj (decoded.symm.trans read)
  exact vouched

theorem RpcMsg.Vouched.sendRaw {msg : RpcMsg} (vouched : msg.Vouched D) (few : msg.contacts.length ≤ k) (dst : SocketAddr) :
    ∀ sent ∈ Kademlia.sendRaw dst msg, Speaks D sent.2 := by
  intro sent member
  unfold Kademlia.sendRaw at member
  split at member
  next bytes encoded =>
    rw [List.mem_singleton.mp member]
    exact ⟨msg, vouched, few, encoded⟩
  next => cases member

theorem RpcMsg.IsRequest.no_contacts {msg : RpcMsg} (request : msg.IsRequest) : msg.contacts = [] := by
  cases msg with
  | ping | store | find => rfl
  | pong | found => exact request.elim

theorem RpcMsg.vouched_of_bare {msg : RpcMsg} (contacts : msg.contacts = []) (descriptors : msg.descriptors = []) :
    msg.Vouched D where
  contacts := by simp [contacts]
  descriptors := by simp [descriptors]

theorem Kademlia.vouched_tryMerge {kad : Kademlia} {contacts : List Contact} (table : ∀ c ∈ kad.rt, c.Vouched D)
    (new : ∀ c ∈ contacts, c.Vouched D) : ∀ c ∈ (kad.tryMerge contacts).rt, c.Vouched D := by
  intro c member
  rcases mem_tryMerge member with old | ⟨heard, -⟩
  · exact table c old
  · exact new c heard

theorem Kademlia.closest_subset (kad : Kademlia) (key : NodeId) (n : Nat) : kad.closest key n ⊆ kad.rt :=
  fun _ member => (sortByDist_perm key kad.rt).mem_iff.mp (List.mem_of_mem_take member)

/-! ## Tasks -/

theorem Lookup.Vouched.enter {l : Lookup} (vouched : l.Vouched D) (caller : Caller) : (Lookup.enter caller l).Vouched D := by
  unfold Lookup.enter
  split
  · exact fun d member => nomatch member
  next batch taken =>
    refine ⟨vouched.1, fun c member => vouched.1 c ?_⟩
    exact List.mem_of_mem_filter (List.mem_of_mem_take member)

theorem Resume.Vouched.task {resume : Resume} (vouched : resume.Vouched D) : resume.task.Vouched D := by
  cases resume <;> exact vouched

theorem Resume.Vouched.reply {resume : Resume} (vouched : resume.Vouched D) {reply? : Option RpcMsg}
    (got : ∀ msg ∈ reply?, msg.Vouched D) : (resume.reply reply?).Vouched D := by
  unfold Resume.reply
  split
  next caller l contacts value =>
    split
    next v =>
      intro d member
      obtain rfl := Option.mem_some.mp member
      exact (got _ rfl).descriptors _ (by simp [RpcMsg.descriptors])
    next => exact ⟨(got _ rfl).contacts, vouched⟩
  next => exact ⟨(got _ rfl).contacts, vouched⟩
  next => exact vouched.task

theorem Task.Initial.vouched {kad : Kademlia} (own : D kad.ownDesc) {task : Task} (initial : task.Initial kad) : task.Vouched D := by
  cases initial with
  | lookup | lookupRoute => trivial
  | bootstrap seeds =>
    intro call member
    rcases List.mem_append.mp member with first | second
    · obtain ⟨⟨seed, nonce⟩, -, calls⟩ := List.mem_flatMap.mp first
      rcases List.mem_cons.mp calls with rfl | calls
      · exact ⟨RpcMsg.vouched_of_bare rfl rfl, trivial⟩
      · rw [List.mem_singleton.mp calls]
        exact ⟨RpcMsg.vouched_of_bare rfl rfl, trivial⟩
    · obtain ⟨⟨seed, nonce⟩, -, rfl⟩ := List.mem_map.mp second
      refine ⟨⟨by simp [RpcMsg.contacts], fun d member => ?_⟩, trivial⟩
      rw [List.mem_singleton.mp member]
      exact own

theorem Task.Vouched.call {task : Task} (vouched : task.Vouched D) {addr : SocketAddr} {msg : RpcMsg} {resume : Resume}
    (asks : task.call? = some (addr, msg, resume)) : msg.Vouched D ∧ msg.IsRequest ∧ resume.Vouched D := by
  unfold Task.call? at asks
  split at asks
  next caller l =>
    split at asks
    · cases asks
    next c batch cut =>
      cases asks
      refine ⟨RpcMsg.vouched_of_bare rfl rfl, trivial, vouched.1, fun c member => vouched.2 c ?_⟩
      rw [cut]
      exact List.mem_cons_of_mem _ member
  · cases asks
    obtain ⟨first, request⟩ := vouched _ List.mem_cons_self
    exact ⟨first, request, fun call member => vouched call (List.mem_cons_of_mem _ member)⟩
  · cases asks

/-! ## Nodes -/

namespace DhtNode

variable {s t : DhtNode} {event : Event}

theorem Vouched.put (vouched : s.Vouched D) (i : Nat) {task : Task} (new : task.Vouched D) : (s.put i task).Vouched D :=
  { vouched with
    tasks := fun j other here => by
      rcases Table.get_insert_some here with ⟨-, rfl⟩ | ⟨-, old⟩
      · exact new
      · exact vouched.tasks j other old }

theorem Vouched.keep (vouched : s.Vouched D) {key : NodeId} {d : Descriptor} (new : D d) :
    ({ s with dhtCache := s.dhtCache.insert key d } : DhtNode).Vouched D :=
  { vouched with
    cache := fun key' d' here => by
      rcases Table.get_insert_some here with ⟨-, rfl⟩ | ⟨-, old⟩
      · exact new
      · exact vouched.cache key' d' old }

theorem got_closeAt {addr : SocketAddr} {rx : ReplyTx} {msg : RpcMsg} (here : (s.closeAt addr).channels.get rx = some (.got msg)) :
    s.channels.get rx = some (.got msg) := by
  unfold closeAt at here
  split at here
  · rcases Table.get_insert_some here with ⟨-, same⟩ | ⟨-, old⟩
    · cases same
    · exact old
  · exact here

theorem Vouched.openAt (vouched : s.Vouched D) (addr : SocketAddr) : (s.openAt addr).Vouched D := by
  obtain ⟨cache, tasks, -⟩ := s.openAt_kept addr
  have same := s.openAt_same addr
  refine ⟨?_, ?_, ?_, ?_, fun rx msg here => ?_, ?_⟩
  · rw [same]
    exact vouched.own
  · rw [same]
    exact vouched.table
  · rw [same]
    exact vouched.store
  · rw [cache]
    exact vouched.cache
  · unfold DhtNode.openAt at here
    rcases Table.get_insert_some here with ⟨-, same⟩ | ⟨-, here⟩
    · cases same
    · exact vouched.got rx msg (got_closeAt here)
  · rw [tasks]
    exact vouched.tasks

theorem Vouched.removeAt (vouched : s.Vouched D) (addr : SocketAddr) : (s.removeAt addr).Vouched D := by
  refine ⟨vouched.own, vouched.table, vouched.store, ?_, fun rx msg here => vouched.got rx msg (got_closeAt here), ?_⟩
  · rw [dhtCache_removeAt]
    exact vouched.cache
  · rw [tasks_removeAt]
    exact vouched.tasks

theorem Vouched.advance (vouched : s.Vouched D) {i : Nat} {task : Task} (here : s.tasks.get i = some task)
    (step : s.advance i task = some t) : t.Vouched D := by
  have holds := vouched.tasks i task here
  obtain ⟨u, next, move, rfl⟩ := advance_cases step
  cases move with
  | cached hit =>
    refine vouched.put i fun d same => ?_
    cases same
    exact vouched.cache _ _ hit
  | uncached | unstored => exact vouched.put i trivial
  | stored hit =>
    have fine := (vouched.store _ _ hit).1
    refine (vouched.keep fine).put i fun d same => ?_
    cases same
    exact fine
  | @start caller key wantValue =>
    have near : Lookup.Vouched D ⟨key, wantValue, s.kad.closest key k, [], []⟩ :=
      ⟨fun c member => vouched.table c (s.kad.closest_subset _ _ member), by simp⟩
    exact vouched.put i (near.enter caller)
  -- A lookup that has converged returns nothing.
  | converged =>
    refine vouched.put i fun d member => ?_
    cases member
  | @round caller l =>
    have near : Lookup.Vouched D { l with closestSeen := s.kad.closest l.key k } :=
      ⟨fun c member => vouched.table c (s.kad.closest_subset _ _ member), holds.2⟩
    exact vouched.put i (near.enter caller)
  -- Whoever a late reply was meant for, what is in it is vouched for all the same.
  | got reply =>
    refine vouched.put i (Resume.Vouched.reply holds fun msg member => ?_)
    obtain rfl := Option.mem_some.mp member
    exact vouched.got _ _ reply
  | closed => exact vouched.put i (Resume.Vouched.reply holds fun msg member => nomatch member)
  | expired => exact (vouched.removeAt _).put i (Resume.Vouched.reply holds fun msg member => nomatch member)
  | merging =>
    have merged : ({ s with kad := s.kad.tryMerge _ } : DhtNode).Vouched D :=
      { vouched with table := Kademlia.vouched_tryMerge vouched.table holds.1 }
    exact merged.put i holds.2.task
  | found =>
    have fine : D _ := holds _ rfl
    refine (vouched.keep fine).put i fun d same => ?_
    cases same
    exact fine
  | notFound => exact vouched.put i fun d same => nomatch same

theorem Vouched.receive (vouched : s.Vouched D) (src : SocketAddr) {data : List UInt8}
    (heard : ∀ msg, rpcDecode C (recvFrom data) = .ok msg → msg.Vouched D) : (s.receive C src data).Vouched D ∧
      ∃ new, (s.receive C src data).sent = s.sent ++ new ∧ ∀ sent ∈ new, Speaks D sent.2 := by
  generalize received : s.receive C src data = t
  have move : Receive C s src data t := received ▸ receive_cases C s src data
  cases move with
  | dropped | unasked => exact ⟨vouched, [], (List.append_nil _).symm, fun sent member => nomatch member⟩
  | @reply msg tx decoded =>
    refine ⟨{ vouched with got := fun rx other here => ?_ }, [], (List.append_nil _).symm, fun sent member => nomatch member⟩
    rcases Table.get_insert_some here with ⟨-, same⟩ | ⟨-, old⟩
    · cases same
      exact heard msg decoded
    · exact vouched.got rx other old
  | @ping nonce =>
    have bare : (pingResponse nonce).Vouched D := RpcMsg.vouched_of_bare rfl rfl
    exact ⟨{ vouched with own := vouched.own }, _, rfl, bare.sendRaw (Nat.zero_le _) src⟩
  | @store desc decoded =>
    have fine : D desc := (heard _ decoded).descriptors desc (List.mem_singleton_self desc)
    refine ⟨{ vouched with table := ?_, store := fun key d here => ?_ }, [], (List.append_nil _).symm,
      fun sent member => nomatch member⟩
    · refine Kademlia.vouched_tryMerge vouched.table fun c member => ?_
      exact ⟨desc, fine, List.mem_singleton.mp member⟩
    · rcases Table.get_insert_some here with ⟨same, rfl⟩ | ⟨-, old⟩
      · exact ⟨fine, same.symm⟩
      · exact vouched.store key d old
  | @find key wantValue =>
    have answer : (RpcMsg.found (s.kad.closest key k) (if wantValue then s.kad.store.get key else none)).Vouched D := by
      refine ⟨fun c member => vouched.table c (s.kad.closest_subset _ _ member), fun d member => ?_⟩
      have value : (if wantValue then s.kad.store.get key else none) = some d := Option.mem_toList.mp member
      split at value
      · exact (vouched.store key d value).1
      · cases value
    exact ⟨{ vouched with own := vouched.own }, _, rfl, answer.sendRaw (List.length_take_le k _) src⟩

theorem Vouched.step (vouched : s.Vouched D) (step : Step C s event t)
    (heard : ∀ src data msg, event = .receive src data → rpcDecode C (recvFrom data) = .ok msg → msg.Vouched D) :
    t.Vouched D ∧ ∃ new, t.sent = s.sent ++ new ∧ ∀ sent ∈ new, Speaks D sent.2 := by
  have silent {u : DhtNode} (same : u.sent = s.sent) : ∃ new, u.sent = s.sent ++ new ∧ ∀ sent ∈ new, Speaks D sent.2 :=
    ⟨[], by rw [same, List.append_nil], fun sent member => nomatch member⟩
  cases step with
  | receive src data => exact vouched.receive src fun msg decoded => heard src data msg rfl decoded
  | start _ initial => exact ⟨vouched.put _ (initial.vouched vouched.own), silent rfl⟩
  | advance here step => exact ⟨vouched.advance here step, silent (advance_sent step)⟩
  | @call i task addr msg resume here asks =>
    obtain ⟨fine, request, onward⟩ := (vouched.tasks _ _ here).call asks
    have opened := vouched.openAt addr
    have sends : ({ s.openAt addr with sent := s.sent ++ Kademlia.sendRaw addr msg } : DhtNode).Vouched D :=
      { opened with own := opened.own }
    refine ⟨sends.put i onward, _, rfl, fine.sendRaw ?_ addr⟩
    rw [request.no_contacts]
    exact Nat.zero_le _
  | @fail i task addr msg resume here asks =>
    obtain ⟨-, -, onward⟩ := (vouched.tasks _ _ here).call asks
    refine ⟨(vouched.openAt addr).put i (onward.reply fun msg member => nomatch member), silent (s.sent_openAt addr)⟩
  | @expire i addr rx resume here =>
    have holds : resume.Vouched D := vouched.tasks _ _ here
    have ended : Task.Vouched D (.expired addr resume) := holds
    exact ⟨vouched.put i ended, silent rfl⟩

end DhtNode

/-! ## The swarm -/

structure Member (C : Crates) where
  identity : NodeIdentity C
  desc : Descriptor
  signed : Descriptor.SignedBy identity desc

def Own (members : List (Member C)) (d : Descriptor) : Prop := ∃ m ∈ members, m.desc = d

abbrev Swarm : Type := Parties SocketAddr DhtNode (List UInt8)

abbrev SwarmEvent : Type := PartyEvent SocketAddr (List UInt8) Event

def eventOf : Cause SocketAddr (List UInt8) Event → Event
  | .own event => event
  | .arrival src data => .receive src data

/-- Of its own, a node receives nothing. -/
def Fair : Cause SocketAddr (List UInt8) Event → Prop
  | .own (.receive _ _) => False
  | _ => True

theorem Fair.arrival {cause : Cause SocketAddr (List UInt8) Event} (fair : Fair cause) {src : SocketAddr} {data : List UInt8}
    (caused : eventOf cause = .receive src data) : cause = .arrival src data := by
  cases cause with
  | own event =>
    obtain rfl : event = .receive src data := caused
    exact fair.elim
  | arrival =>
    cases caused
    rfl

namespace DhtNode

def conduct (C : Crates) : Conduct SocketAddr DhtNode (List UInt8) Event := fun s cause t out =>
  Fair cause ∧ Step C s (eventOf cause) t ∧ t.sent = s.sent ++ out

variable {s t : DhtNode} {cause : Cause SocketAddr (List UInt8) Event} {out : List (SocketAddr × List UInt8)}

theorem Vouched.conduct (vouched : s.Vouched D) (accepted : ∀ d, D d → Accepted C d) (moves : conduct C s cause t out)
    (fine : ∀ src data, cause = .arrival src data → Speaks D data) : t.Vouched D ∧ ∀ sent ∈ out, Speaks D sent.2 := by
  obtain ⟨fair, step, sent⟩ := moves
  obtain ⟨after, new, grown, speaks⟩ := vouched.step step fun src data msg received decoded =>
    (fine src data (fair.arrival received)).read accepted decoded
  rw [sent, List.append_cancel_left_eq] at grown
  exact ⟨after, grown ▸ speaks⟩

end DhtNode

namespace Swarm

def start (members : List (Member C)) : Swarm where
  nodes := fun addr => (members.find? fun m => m.desc.dhtAddr = addr).map fun m => .spawn m.identity m.desc []
  sent := []

abbrev Step (C : Crates) : Swarm → SwarmEvent → Swarm → Prop := Parties.Step (DhtNode.conduct C)

theorem acts {s : Swarm} {addr : SocketAddr} {node node' : DhtNode} {event : Event} (present : s.nodes.get addr = some node)
    (step : DhtNode.Step C node event node') (fair : Fair (.own event)) {out : List (SocketAddr × List UInt8)}
    (sent : node'.sent = node.sent ++ out) : Step C s (.act addr event) (s.update addr node' out) :=
  .act present ⟨fair, step, sent⟩

theorem arrives {s : Swarm} {d : Datagram SocketAddr (List UInt8)} {node : DhtNode} (sent : d ∈ s.sent)
    (present : s.nodes.get d.dst = some node) : ∃ t, Step C s (.arrive d) t := by
  generalize received : node.receive C d.src d.payload = next
  have move : DhtNode.Receive C node d.src d.payload next := received ▸ DhtNode.receive_cases C node d.src d.payload
  have step : DhtNode.Step C node (.receive d.src d.payload) next := received ▸ .receive node d.src d.payload
  have grown : ∃ out, next.sent = node.sent ++ out := by
    cases move with
    | dropped | reply | unasked | store => exact ⟨[], (List.append_nil _).symm⟩
    | ping | find => exact ⟨_, rfl⟩
  obtain ⟨out, grown⟩ := grown
  exact ⟨_, .arrive sent present ⟨trivial, step, grown⟩⟩

/-- The node at `addr` is that of a member, and vouched for by the members. -/
structure Manned (members : List (Member C)) (addr : SocketAddr) (node : DhtNode) : Prop where
  vouched : node.Vouched (Own members)
  arranged : node.kad.Arranged
  member : ∃ m ∈ members, m.desc.dhtAddr = addr ∧ node.kad.id = m.identity.nodeId ∧ node.kad.ownDesc = m.desc

variable {members : List (Member C)} {s t : Swarm} {addr : SocketAddr} {node : DhtNode}

theorem start_get (here : (start members).nodes.get addr = some node) :
    ∃ m ∈ members, m.desc.dhtAddr = addr ∧ node = .spawn m.identity m.desc [] := by
  obtain ⟨m, found, rfl⟩ := Option.map_eq_some_iff.mp here
  exact ⟨m, List.mem_of_find?_eq_some found, by simpa using List.find?_some found, rfl⟩

theorem start_present (apart : (members.map fun m => m.desc.dhtAddr).Nodup) {m : Member C} (among : m ∈ members) :
    (start members).nodes.get m.desc.dhtAddr = some (.spawn m.identity m.desc []) := by
  have found : (members.find? fun other => other.desc.dhtAddr = m.desc.dhtAddr).isSome :=
    List.find?_isSome.mpr ⟨m, among, by simp⟩
  obtain ⟨other, here⟩ := Option.isSome_iff_exists.mp found
  obtain rfl : other = m :=
    List.inj_on_of_nodup_map apart (List.mem_of_find?_eq_some here) among (by simpa using List.find?_some here)
  exact congrArg (Option.map _) here

theorem manned_spawn {m : Member C} (among : m ∈ members) :
    Manned members m.desc.dhtAddr (.spawn m.identity m.desc []) where
  vouched :=
    { own := ⟨m, among, rfl⟩
      table := fun c member => ⟨m.desc, ⟨m, among, rfl⟩, List.mem_singleton.mp member⟩
      store := fun key d here => by
        rcases Table.get_insert_some here with ⟨same, rfl⟩ | ⟨-, none⟩
        · exact ⟨⟨m, among, rfl⟩, m.signed.fields.1.trans same.symm⟩
        · cases none
      cache := fun _ _ here => nomatch here
      got := fun _ _ here => nomatch here
      tasks := fun _ _ here => nomatch here }
  arranged := DhtNode.arranged_spawn m.signed
  member := ⟨m, among, rfl, rfl, rfl⟩

theorem accepted_own (verifies : ∀ key msg, C.verify (C.verifyingKey key) msg (C.sign key msg) = true) {d : Descriptor}
    (own : Own members d) : Accepted C d := by
  obtain ⟨m, -, rfl⟩ := own
  obtain ⟨bytes, encoded, -, read⟩ := Descriptor.fromSignedBytes_toBytes (ε := CryptoError) (m.signed.verified_of verifies)
  exact ⟨bytes, _, encoded, read⟩

theorem Manned.conduct (verifies : ∀ key msg, C.verify (C.verifyingKey key) msg (C.sign key msg) = true)
    (manned : Manned members addr node) {cause : Cause SocketAddr (List UInt8) Event} {node' : DhtNode}
    {out : List (SocketAddr × List UInt8)} (moves : DhtNode.conduct C node cause node' out)
    (fine : ∀ src data, cause = .arrival src data → Speaks (Own members) data) :
    Manned members addr node' ∧ ∀ sent ∈ out, Speaks (Own members) sent.2 := by
  obtain ⟨vouched, speaks⟩ := manned.vouched.conduct (fun d own => accepted_own verifies own) moves fine
  obtain ⟨id, ownDesc⟩ := moves.2.1.id_ownDesc
  obtain ⟨m, among, there, named, desc⟩ := manned.member
  exact ⟨⟨vouched, moves.2.1.arranged manned.arranged, m, among, there, id.trans named, ownDesc.trans desc⟩, speaks⟩

theorem keeps_manned (verifies : ∀ key msg, C.verify (C.verifyingKey key) msg (C.sign key msg) = true) :
    Parties.Keeps (DhtNode.conduct C) (Manned members) (Speaks (Own members)) where
  own _ _ _ _ _ manned moves := manned.conduct verifies moves nofun
  arrival _ _ _ _ _ _ manned speaks moves := manned.conduct verifies moves fun _ _ same => by
    cases same
    exact speaks

theorem all_manned (verifies : ∀ key msg, C.verify (C.verifyingKey key) msg (C.sign key msg) = true)
    {events : List SwarmEvent} (run : Run (Step C) (start members) events t) :
    t.All (Manned members) (Speaks (Own members)) := by
  refine (keeps_manned verifies).run ⟨fun addr node here => ?_, by simp [start]⟩ run
  obtain ⟨m, among, rfl, rfl⟩ := start_get here
  exact manned_spawn among

/-- All that a node knows of others is as they are, and leads to them. -/
structure Guided (members : List (Member C)) (s : Swarm) (node : DhtNode) : Prop where
  contacts : ∀ c ∈ node.kad.rt, ∃ peer, s.nodes.get c.addr = some peer ∧ peer.kad.id = c.nodeId
  stored : ∀ key d, node.kad.store.get key = some d → ∃ m ∈ members, m.identity.nodeId = key ∧ m.desc = d
  cached : ∀ key d, node.dhtCache.get key = some d → Own members d
  found : ∀ i caller key d, node.tasks.get i = some (.found caller key (some d)) → Own members d
  routed : ∀ i target d, node.tasks.get i = some (.routed target (.ok d)) → Own members d

/-- Whatever is lost, doubled or late: what any node has in its routing table, its store, its cache and the results of its
lookups is what the members have signed, and every contact leads to the node that it names. -/
theorem guided (verifies : ∀ key msg, C.verify (C.verifyingKey key) msg (C.sign key msg) = true) (members : List (Member C))
    (apart : (members.map fun m => m.desc.dhtAddr).Nodup) {events : List SwarmEvent}
    (run : Run (Step C) (start members) events t) (addr : SocketAddr) (node : DhtNode) (here : t.nodes.get addr = some node) :
    Guided members t node := by
  have all := all_manned verifies run
  have manned := all.nodes addr node here
  refine ⟨fun c member => ?_, fun key d stored => ?_, manned.vouched.cache, fun i caller key d ended => ?_,
    fun i target d ended => manned.vouched.tasks i _ ended d rfl⟩
  · obtain ⟨d, ⟨m, among, rfl⟩, rfl⟩ := manned.vouched.table c member
    rw [Contact.addr_fromDesc m.signed.fields.2.2.2.2.2]
    have listens : ((start members).nodes.get m.desc.dhtAddr).isSome := by
      rw [start_present apart among]
      rfl
    rw [← Parties.isSome_run run] at listens
    obtain ⟨peer, there⟩ := Option.isSome_iff_exists.mp listens
    obtain ⟨other, among', same, named, -⟩ := (all.nodes _ _ there).member
    obtain rfl := List.inj_on_of_nodup_map apart among' among same
    exact ⟨peer, there, named.trans other.signed.fields.1.symm⟩
  · obtain ⟨⟨m, among, rfl⟩, named⟩ := manned.vouched.store key d stored
    exact ⟨m, among, m.signed.fields.1.symm.trans named, rfl⟩
  · exact manned.vouched.tasks i _ ended d rfl

/-! ## What a node has learnt -/

def Received (C : Crates) (addr : SocketAddr) (d : Descriptor) (events : List SwarmEvent) : Prop :=
  ∃ datagram, .arrive datagram ∈ events ∧ datagram.dst = addr ∧ rpcDecode C (recvFrom datagram.payload) = .ok (.store d)

def Stores (C : Crates) (d : Descriptor) (cause : Cause SocketAddr (List UInt8) Event) : Prop :=
  ∃ src data, cause = .arrival src data ∧ rpcDecode C (recvFrom data) = .ok (.store d)

theorem received_iff {d : Descriptor} {events : List SwarmEvent} :
    Received C addr d events ↔ ∃ cause ∈ events.filterMap (Parties.causeAt addr), Stores C d cause := by
  constructor
  · rintro ⟨datagram, member, there, decoded⟩
    exact ⟨_, List.mem_filterMap.mpr ⟨_, member, if_pos there⟩, _, _, rfl, decoded⟩
  · rintro ⟨cause, member, src, data, rfl, decoded⟩
    obtain ⟨event, among, same⟩ := List.mem_filterMap.mp member
    cases event with
    | act a label =>
      simp only [Parties.causeAt] at same
      split at same <;> cases same
    | arrive datagram =>
      simp only [Parties.causeAt] at same
      split at same
      next there =>
        cases same
        exact ⟨datagram, among, there, decoded⟩
      next => cases same

abbrev Moves (members : List (Member C)) (addr : SocketAddr) :
    DhtNode → Cause SocketAddr (List UInt8) Event → DhtNode → Prop :=
  Parties.Local (DhtNode.conduct C) (Manned members addr) (Speaks (Own members))

variable {node' : DhtNode} {cause : Cause SocketAddr (List UInt8) Event}

/-- A member's descriptor comes into the store by its STORE only, and nothing takes it out. -/
theorem Moves.stored (verifies : ∀ key msg, C.verify (C.verifyingKey key) msg (C.sign key msg) = true)
    (ids : (members.map fun m => m.identity.nodeId).Nodup) (moves : Moves members addr node cause node') {m : Member C}
    (among : m ∈ members) : node'.kad.store.get m.identity.nodeId = some m.desc ↔
      node.kad.store.get m.identity.nodeId = some m.desc ∨ Stores C m.desc cause := by
  obtain ⟨-, fine, out, fair, step, -⟩ := moves
  generalize caused : eventOf cause = event at step
  cases step.change with
  | none silent same =>
    have never : ¬ Stores C m.desc cause := by
      rintro ⟨src, data, rfl, decoded⟩
      exact silent src data caused.symm _ decoded
    rw [same.store, or_iff_left never]
  | merged _ merged =>
    have never : ¬ Stores C m.desc cause := by
      rintro ⟨src, data, rfl, -⟩
      cases caused
    rw [merged, or_iff_left never]
    rfl
  | @stored src data desc decoded =>
    obtain rfl := fair.arrival caused
    -- Only members speak, so what is stored is some member's own.
    have vouched := (fine _ _ rfl).read (fun d own => accepted_own verifies own) decoded
    obtain ⟨other, among', rfl⟩ := vouched.descriptors desc (List.mem_singleton_self desc)
    have grown : (node.kad.handle src (.store other.desc)).1.store = node.kad.store.insert other.identity.nodeId other.desc :=
      congrArg (node.kad.store.insert · other.desc) other.signed.fields.1
    rw [grown]
    by_cases same : m = other
    · subst same
      exact iff_of_true (Table.get_insert_self ..) (.inr ⟨src, data, rfl, decoded⟩)
    · have names : m.identity.nodeId ≠ other.identity.nodeId := fun equal => same (List.inj_on_of_nodup_map ids among among' equal)
      have never : ¬ Stores C m.desc (.arrival src data) := by
        rintro ⟨_, _, again, decoded'⟩
        cases again
        have desc : m.desc = other.desc := RpcMsg.store.inj (Checked.ok.inj (decoded'.symm.trans decoded))
        exact names (m.signed.fields.1.symm.trans ((congrArg Descriptor.nodeId desc).trans other.signed.fields.1))
      rw [Table.get_insert_of_ne _ _ names, or_iff_left never]

/-- In every run: a node has the descriptor of a member in its store exactly if it is its own or a STORE of it has arrived. -/
theorem stored_iff_received (verifies : ∀ key msg, C.verify (C.verifyingKey key) msg (C.sign key msg) = true)
    (members : List (Member C)) (apart : (members.map fun m => m.desc.dhtAddr).Nodup)
    (ids : (members.map fun m => m.identity.nodeId).Nodup) (host : Member C) (among : host ∈ members) {events : List SwarmEvent}
    (run : Run (Step C) (start members) events t) :
    ∃ node, t.nodes.get host.desc.dhtAddr = some node ∧ ∀ m ∈ members,
      node.kad.store.get m.identity.nodeId = some m.desc ↔ m = host ∨ Received C host.desc.dhtAddr m.desc events := by
  obtain ⟨node, here, moves⟩ :=
    Parties.local_run (keeps_manned verifies) (all_manned verifies (.nil _)) run (start_present apart among)
  refine ⟨node, here, fun m member => ?_⟩
  rw [received_iff]
  clear here run
  generalize events.filterMap (Parties.causeAt host.desc.dhtAddr) = causes at moves
  induction moves with
  | nil =>
    simp only [List.not_mem_nil, false_and, exists_false, or_false, DhtNode.spawn]
    constructor
    · intro there
      rcases Table.get_insert_some there with ⟨same, -⟩ | ⟨-, none⟩
      · exact List.inj_on_of_nodup_map ids member among same
      · cases none
    · rintro rfl
      exact Table.get_insert_self ..
  | snoc _ last ih =>
    rw [Moves.stored verifies ids last member, ih, or_assoc]
    simp [or_and_right, exists_or]

theorem room {kad : Kademlia} (arranged : kad.Arranged) (few : members.length ≤ 64) {contacts : List Contact}
    (table : ∀ c ∈ kad.rt, c.Vouched (Own members)) (new : ∀ c ∈ contacts, c.Vouched (Own members)) :
    Dht.ids (kad.tryMerge contacts).rt = Dht.ids kad.rt ∪ Dht.ids contacts ∧ kad.rt ⊆ (kad.tryMerge contacts).rt := by
  have named {c : Contact} (vouched : c.Vouched (Own members)) : c.nodeId ∈ (members.map fun m => m.desc.nodeId).toFinset := by
    obtain ⟨_, ⟨m, among, rfl⟩, rfl⟩ := vouched
    exact List.mem_toFinset.mpr (List.mem_map.mpr ⟨m, among, rfl⟩)
  have within : Dht.ids kad.rt ∪ Dht.ids contacts ⊆ (members.map fun m => m.desc.nodeId).toFinset := by
    intro i member
    rcases Finset.mem_union.mp member with old | heard
    · obtain ⟨c, there, rfl⟩ := mem_ids.mp old
      exact named (table c there)
    · obtain ⟨c, there, rfl⟩ := mem_ids.mp heard
      exact named (new c there)
  have all : Dht.ids (kad.tryMerge contacts).rt = Dht.ids kad.rt ∪ Dht.ids contacts := by
    rw [arranged.ids_tryMerge, nearest_of_card_le]
    refine (Finset.card_le_card within).trans ((List.toFinset_card_le _).trans ?_)
    rwa [List.length_map]
  refine ⟨all, fun c member => arranged.stays member ?_⟩
  rw [all]
  exact Finset.mem_union_left _ (mem_ids.mpr ⟨c, member, rfl⟩)

theorem contact_of_id (ids : (members.map fun m => m.identity.nodeId).Nodup) {m : Member C} (among : m ∈ members) {c : Contact}
    (vouched : c.Vouched (Own members)) (named : c.nodeId = m.identity.nodeId) : c = Contact.fromDesc m.desc := by
  obtain ⟨_, ⟨other, among', rfl⟩, rfl⟩ := vouched
  obtain rfl := List.inj_on_of_nodup_map ids among' among (other.signed.fields.1.symm.trans named)
  rfl

theorem merged (ids : (members.map fun m => m.identity.nodeId).Nodup) {m : Member C} (among : m ∈ members) {kad : Kademlia}
    (arranged : kad.Arranged) (few : members.length ≤ 64) {contacts : List Contact}
    (table : ∀ c ∈ kad.rt, c.Vouched (Own members)) (new : ∀ c ∈ contacts, c.Vouched (Own members))
    (told : Contact.fromDesc m.desc ∈ contacts) : Contact.fromDesc m.desc ∈ (kad.tryMerge contacts).rt := by
  have there : m.identity.nodeId ∈ Dht.ids (kad.tryMerge contacts).rt := by
    rw [(room arranged few table new).1]
    exact Finset.mem_union_right _ (mem_ids.mpr ⟨_, told, m.signed.fields.1⟩)
  obtain ⟨c, member, named⟩ := mem_ids.mp there
  rwa [← contact_of_id ids among (Kademlia.vouched_tryMerge table new c member) named]

theorem Moves.learns (verifies : ∀ key msg, C.verify (C.verifyingKey key) msg (C.sign key msg) = true) (few : members.length ≤ 64)
    (ids : (members.map fun m => m.identity.nodeId).Nodup) (moves : Moves members addr node cause node') :
    node.kad.rt ⊆ node'.kad.rt ∧ ∀ m ∈ members, Stores C m.desc cause → Contact.fromDesc m.desc ∈ node'.kad.rt := by
  obtain ⟨manned, fine, out, fair, step, -⟩ := moves
  generalize caused : eventOf cause = event at step
  cases step.change with
  | none silent same =>
    rw [same.rt]
    refine ⟨List.Subset.refl _, fun m _ stores => ?_⟩
    obtain ⟨src, data, rfl, decoded⟩ := stores
    exact absurd decoded (silent src data caused.symm m.desc)
  | merged here merged =>
    have holds := (manned.vouched.tasks _ _ here).1
    rw [merged]
    refine ⟨(room manned.arranged few manned.vouched.table holds).2, fun m _ stores => ?_⟩
    obtain ⟨src, data, rfl, -⟩ := stores
    cases caused
  | @stored src data desc decoded =>
    obtain rfl := fair.arrival caused
    have vouched := (fine _ _ rfl).read (fun d own => accepted_own verifies own) decoded
    have single : ∀ c ∈ [Contact.fromDesc desc], c.Vouched (Own members) := fun c member =>
      ⟨desc, vouched.descriptors desc (List.mem_singleton_self desc), List.mem_singleton.mp member⟩
    refine ⟨(room (manned.arranged.keep desc) few manned.vouched.table single).2, fun m among stores => ?_⟩
    obtain ⟨_, _, again, decoded'⟩ := stores
    cases again
    obtain rfl : desc = m.desc := RpcMsg.store.inj (Checked.ok.inj (decoded.symm.trans decoded'))
    exact merged ids among (manned.arranged.keep m.desc) few manned.vouched.table single (List.mem_singleton_self _)

/-- In a network of no more members than a table holds: whoever is in a table stays there, and so does every member of whom
a STORE arrives. -/
theorem contacts_stay (verifies : ∀ key msg, C.verify (C.verifyingKey key) msg (C.sign key msg) = true)
    (members : List (Member C)) (few : members.length ≤ 64) (ids : (members.map fun m => m.identity.nodeId).Nodup)
    {before after : List SwarmEvent} (run : Run (Step C) (start members) before s) (later : Run (Step C) s after t)
    (addr : SocketAddr) (node : DhtNode) (here : s.nodes.get addr = some node) :
    ∃ node', t.nodes.get addr = some node' ∧ node.kad.rt ⊆ node'.kad.rt ∧
      ∀ m ∈ members, Received C addr m.desc after → Contact.fromDesc m.desc ∈ node'.kad.rt := by
  obtain ⟨node', there, moves⟩ := Parties.local_run (keeps_manned verifies) (all_manned verifies run) later here
  refine ⟨node', there, ?_⟩
  simp only [received_iff]
  clear here there later
  generalize after.filterMap (Parties.causeAt addr) = causes at moves
  induction moves with
  | nil => exact ⟨List.Subset.refl _, fun m _ received => by simp at received⟩
  | snoc _ last ih =>
    obtain ⟨kept, known⟩ := ih
    obtain ⟨stays, learnt⟩ := Moves.learns verifies few ids last
    refine ⟨List.Subset.trans kept stays, fun m among received => ?_⟩
    obtain ⟨cause, member, stores⟩ := received
    rcases List.mem_append.mp member with old | new
    · exact stays (known m among ⟨cause, old, stores⟩)
    · exact learnt m among (List.mem_singleton.mp new ▸ stores)

end Swarm

namespace Transparent

open Nbf.Crypto.Transparent

def nearMember : Member crates := ⟨identity 1, descriptor 1 9100, descriptor_signed 1 9100⟩

def farMember : Member crates := ⟨identity 20, descriptor 20 9101, descriptor_signed 20 9101⟩

def twoMembers : List (Member crates) := [nearMember, farMember]

theorem twoMembers_apart : (twoMembers.map fun m => m.desc.dhtAddr).Nodup := by decide

theorem twoMembers_ids : (twoMembers.map fun m => m.identity.nodeId).Nodup := by decide

theorem refused {s : DhtNode} {i : Nat} {addr : SocketAddr} {msg : RpcMsg} {todo : List (SocketAddr × RpcMsg)}
    (here : s.tasks.get i = some (.calls ((addr, msg) :: todo))) :
    ∃ t, DhtNode.Step crates s (.fail i) t ∧ t.tasks.get i = some (.calls todo) ∧ t.sent = s.sent ++ [] := by
  have task : Resume.reply (.calls msg todo) none = .calls todo := by cases msg <;> rfl
  refine ⟨_, .fail here rfl, ?_, ?_⟩
  · rw [task]
    exact Table.get_insert_self ..
  · exact (s.sent_openAt addr).trans (List.append_nil _).symm

theorem introduced {s : Swarm} {teller hearer : Member crates} {tells hears : DhtNode}
    (telling : s.nodes.get teller.desc.dhtAddr = some tells)
    (free : tells.tasks.get 0 = none) (own : tells.kad.ownDesc = teller.desc)
    (hearing : s.nodes.get hearer.desc.dhtAddr = some hears) (apart : hearer.desc.dhtAddr ≠ teller.desc.dhtAddr) :
    ∃ events t, Run (Swarm.Step crates) s events t ∧ Swarm.Received crates hearer.desc.dhtAddr teller.desc events ∧
      t.nodes.get hearer.desc.dhtAddr =
        some { hears with kad := (hears.kad.handle teller.desc.dhtAddr (.store teller.desc)).1 } ∧
      ∀ addr, addr ≠ teller.desc.dhtAddr → addr ≠ hearer.desc.dhtAddr → t.nodes.get addr = s.nodes.get addr := by
  obtain ⟨bytes, encoded, decoded⟩ :=
    rpcDecode_recvFrom (Nat.zero_le _) (rpcDecode_store (C := crates) (teller.signed.verified_of lawful.verify_sign))
  let far := teller.desc.dhtAddr
  let near := hearer.desc.dhtAddr
  let task : Task := .calls (bootstrapCalls tells.kad.id [(near, 0)] ++ storeSelfCalls tells.kad.ownDesc [(near, 0)])
  have starts : DhtNode.Step crates tells (.start 0 task) (tells.put 0 task) := .start free (.bootstrap [(near, 0)])
  obtain ⟨second, pinged, rest, silent⟩ := refused (s := tells.put 0 task) (Table.get_insert_self ..)
  obtain ⟨third, asked, rest, silent'⟩ := refused rest
  have stores : DhtNode.Step crates third (.call 0) _ := .call rest rfl
  have sends : Kademlia.sendRaw near (.store tells.kad.ownDesc) = [(near, bytes)] := by
    rw [Kademlia.sendRaw, own, encoded]
  have nothing : (tells.put 0 task).sent = tells.sent ++ [] := (List.append_nil _).symm
  have run := Run.single (Swarm.acts telling starts trivial nothing)
    |>.snoc (Swarm.acts (Table.get_insert_self ..) pinged trivial silent)
    |>.snoc (Swarm.acts (Table.get_insert_self ..) asked trivial silent')
    |>.snoc (Swarm.acts (Table.get_insert_self ..) stores trivial (congrArg (third.sent ++ ·) sends))
  obtain ⟨events, u, run, sent, others⟩ : ∃ events u,
      Run (Swarm.Step crates) s events u ∧ ⟨far, near, bytes⟩ ∈ u.sent ∧
      ∀ addr, addr ≠ far → u.nodes.get addr = s.nodes.get addr :=
    ⟨_, _, run, List.mem_append_right _ (List.mem_singleton_self _), fun addr other =>
      (Table.get_insert_of_ne _ _ other).trans ((Table.get_insert_of_ne _ _ other).trans
        ((Table.get_insert_of_ne _ _ other).trans (Table.get_insert_of_ne _ _ other)))⟩
  have here : u.nodes.get near = some hears := (others near apart).trans hearing
  have taken : hears.receive crates far bytes = { hears with kad := (hears.kad.handle far (.store teller.desc)).1 } := by
    simp only [DhtNode.receive, decoded, Kademlia.handle, List.append_nil]
  have arrives : Swarm.Step crates u (.arrive ⟨far, near, bytes⟩) (u.update near (hears.receive crates far bytes) []) :=
    .arrive sent here ⟨trivial, .receive hears far bytes, by rw [taken, List.append_nil]⟩
  refine ⟨_, _, run.snoc arrives, ⟨⟨far, near, bytes⟩, by simp, rfl, decoded⟩, ?_, fun addr other other' => ?_⟩
  · exact (Table.get_insert_self ..).trans (congrArg some taken)
  · exact (Table.get_insert_of_ne _ _ other').trans (others addr other)

theorem far_introduced : ∃ events t, Run (Swarm.Step crates) (Swarm.start twoMembers) events t ∧
    Swarm.Received crates nearMember.desc.dhtAddr farMember.desc events := by
  have far := Swarm.start_present twoMembers_apart (m := farMember) (by simp [twoMembers])
  have near := Swarm.start_present twoMembers_apart (m := nearMember) (by simp [twoMembers])
  obtain ⟨events, t, run, received, -⟩ := introduced far rfl rfl near (by decide)
  exact ⟨events, t, run, received⟩

theorem far_guided : ∃ (t : Swarm) (node : DhtNode), t.nodes.get nearMember.desc.dhtAddr = some node ∧
    Swarm.Guided twoMembers t node := by
  obtain ⟨events, t, run, -⟩ := far_introduced
  have present := Swarm.start_present twoMembers_apart (m := nearMember) (by simp [twoMembers])
  obtain ⟨node, here, -⟩ :=
    Parties.local_run (Swarm.keeps_manned lawful.verify_sign) (Swarm.all_manned lawful.verify_sign (.nil _)) run present
  exact ⟨t, node, here, Swarm.guided lawful.verify_sign twoMembers twoMembers_apart run _ node here⟩

theorem far_stored : ∃ (t : Swarm) (node : DhtNode), t.nodes.get nearMember.desc.dhtAddr = some node ∧
    node.kad.store.get (identity 20).nodeId = some (descriptor 20 9101) := by
  obtain ⟨events, t, run, received⟩ := far_introduced
  obtain ⟨node, here, stored⟩ := Swarm.stored_iff_received lawful.verify_sign twoMembers twoMembers_apart twoMembers_ids nearMember
    (by simp [twoMembers]) run
  exact ⟨t, node, here, (stored farMember (by simp [twoMembers])).mpr (.inr received)⟩

theorem far_known : ∃ (t : Swarm) (node : DhtNode), t.nodes.get nearMember.desc.dhtAddr = some node ∧
    Contact.fromDesc (descriptor 20 9101) ∈ node.kad.rt := by
  obtain ⟨events, t, run, received⟩ := far_introduced
  have present := Swarm.start_present twoMembers_apart (m := nearMember) (by simp [twoMembers])
  obtain ⟨node, here, -, known⟩ := Swarm.contacts_stay lawful.verify_sign twoMembers (by decide) twoMembers_ids (.nil _) run _ _ present
  exact ⟨t, node, here, known farMember (by simp [twoMembers]) received⟩

end Transparent
end Nbf.Dht

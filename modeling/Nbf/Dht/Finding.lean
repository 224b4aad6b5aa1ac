import Nbf.Dht.Calls
import Nbf.Dht.Swarm

/-! A lookup that comes upon somebody who knows the node it looks for.

While it lasts, the calls of its node neither fail nor run out of time, no other task of the node
calls anybody, and nothing older comes between the node and the others. The rest of the swarm does
what it likes.
-/

set_option autoImplicit false

namespace Nbf.Dht

open Nbf.Library Nbf.Crypto Nbf.Net

variable {C : Crates}

/-! ## What a step sends -/

namespace DhtNode

inductive Sends (C : Crates) (s : DhtNode) : Event → List (SocketAddr × List UInt8) → Prop where
  | nothing {event : Event} : Sends C s event []
  | call {i : Nat} {task : Task} {addr : SocketAddr} {msg : RpcMsg} {resume : Resume} : s.tasks.get i = some task →
      task.call? = some (addr, msg, resume) → Sends C s (.call i) (Kademlia.sendRaw addr msg)
  | pong {src : SocketAddr} {data : List UInt8} {nonce : UInt64} : rpcDecode C (recvFrom data) = .ok (.ping nonce) →
      Sends C s (.receive src data) (Kademlia.sendRaw src (pingResponse nonce))
  | found {src : SocketAddr} {data : List UInt8} {key : NodeId} {wantValue : Bool} :
      rpcDecode C (recvFrom data) = .ok (.find key wantValue) →
      Sends C s (.receive src data)
        (Kademlia.sendRaw src (.found (s.kad.closest key k) (if wantValue then s.kad.store.get key else none)))

theorem Step.sends {s t : DhtNode} {event : Event} (step : Step C s event t) {out : List (SocketAddr × List UInt8)}
    (sent : t.sent = s.sent ++ out) : Sends C s event out := by
  have silent (same : t.sent = s.sent) : out = [] := by simpa [same] using sent
  cases step with
  | receive src data =>
    generalize received : s.receive C src data = t at sent silent
    have move : Receive C s src data t := received ▸ receive_cases C s src data
    cases move with
    | dropped | reply | unasked | store =>
      rw [silent rfl]
      exact .nothing
    | ping decoded =>
      rw [← List.append_cancel_left sent]
      exact .pong decoded
    | find decoded =>
      rw [← List.append_cancel_left sent]
      exact .found decoded
  | start =>
    rw [silent rfl]
    exact .nothing
  | advance _ step =>
    rw [silent (advance_sent step)]
    exact .nothing
  | call here asks =>
    rw [← List.append_cancel_left sent]
    exact .call here asks
  | @fail i task addr =>
    rw [silent (s.sent_openAt addr)]
    exact .nothing
  | expire =>
    rw [silent rfl]
    exact .nothing

end DhtNode

theorem RpcMsg.Vouched.read_sendRaw {D : Descriptor → Prop} {msg : RpcMsg} (vouched : msg.Vouched D)
    (accepted : ∀ d, D d → Accepted C d) (few : msg.contacts.length ≤ k) {dst : SocketAddr} :
    ∀ sent ∈ Kademlia.sendRaw dst msg, sent.1 = dst ∧ ∀ msg', rpcDecode C (recvFrom sent.2) = .ok msg' → msg' = msg := by
  obtain ⟨bytes, encoded, decoded⟩ := rpcDecode_recvFrom (few.trans (by decide)) (rpcDecode_rpcEncode (C := C) msg
    (few.trans (by decide)) fun d member => accepted d (vouched.descriptors d member))
  intro sent member
  rw [Kademlia.sendRaw, encoded] at member
  rw [List.mem_singleton.mp member]
  exact ⟨rfl, fun msg' read => Checked.ok.inj (read.symm.trans decoded)⟩

/-! ## Answers -/

section

variable (m : Member C) (knows : SocketAddr → Prop)

/-- What `src` answers to a FIND for the member: its descriptor if any, and whoever knows it names it. -/
inductive Tells (src : SocketAddr) : RpcMsg → Prop where
  | named (contacts : List Contact) : Tells src (.found contacts (some m.desc))
  | silent {contacts : List Contact} : src ≠ m.desc.dhtAddr → (knows src → Contact.fromDesc m.desc ∈ contacts) →
      Tells src (.found contacts none)

/-- From `home` come FINDs for the member and replies, to `home` no replies but answers to those. -/
structure Spoken (home : SocketAddr) (d : Datagram SocketAddr (List UInt8)) : Prop where
  asks : d.src = home → ∀ msg, rpcDecode C (recvFrom d.payload) = .ok msg → msg = .find m.identity.nodeId true ∨ msg.isReply
  answers : d.dst = home → ∀ msg, rpcDecode C (recvFrom d.payload) = .ok msg → msg.isReply → Tells m knows d.src msg

end

namespace Swarm

variable {members : List (Member C)} {s t : Swarm} {addr : SocketAddr} {node : DhtNode} {m : Member C}

def Knows (s : Swarm) (m : Member C) (addr : SocketAddr) : Prop :=
  ∃ node, s.nodes.get addr = some node ∧
    (Contact.fromDesc m.desc ∈ node.kad.rt ∨ node.kad.store.get m.identity.nodeId = some m.desc)

theorem Manned.stored_own (ids : (members.map fun m => m.identity.nodeId).Nodup) (among : m ∈ members)
    (manned : Manned members addr node) {d : Descriptor} (stored : node.kad.store.get m.identity.nodeId = some d) : d = m.desc := by
  obtain ⟨⟨other, among', rfl⟩, named⟩ := manned.vouched.store _ d stored
  obtain rfl := List.inj_on_of_nodup_map ids among' among (other.signed.fields.1.symm.trans named)
  rfl

theorem Manned.closest_own (ids : (members.map fun m => m.identity.nodeId).Nodup) (among : m ∈ members)
    (manned : Manned members addr node) (known : Contact.fromDesc m.desc ∈ node.kad.rt) :
    Contact.fromDesc m.desc ∈ node.kad.closest m.identity.nodeId k := by
  have there : m.identity.nodeId ∈ Dht.ids node.kad.rt := mem_ids.mpr ⟨_, known, m.signed.fields.1⟩
  have near := key_nearest (n := k) (by decide) there
  rw [← manned.arranged.ids_closest] at near
  obtain ⟨c, member, named⟩ := mem_ids.mp near
  rwa [← contact_of_id ids among (manned.vouched.table c (node.kad.closest_subset _ _ member)) named]

end Swarm

/-! ## The task -/

section

variable (m : Member C) (knows : SocketAddr → Prop)

/-- The lookup has not asked for `key` at its own node yet, and will if it has seen it. -/
structure Lookup.Open (key : NodeId) (l : Lookup) : Prop where
  sameKey : l.key = key
  wants : l.wantValue = true
  fresh : key ∉ l.queried
  left : key ∈ ids l.closestSeen → key ∈ ids l.batch

/-- The call to `addr` waits for its answer, or has it. -/
def DhtNode.Comes (s : DhtNode) (addr : SocketAddr) (rx : ReplyTx) : Prop :=
  (s.channels.get rx = some .empty ∧ s.kad.pending.get addr = some rx) ∨
    ∃ msg, s.channels.get rx = some (.got msg) ∧ Tells m knows addr msg

/-- A lookup of the member, wherever its task is. What it returns is nobody else's descriptor. -/
def Task.Seeks (s : DhtNode) : Task → Prop
  | .start _ key wantValue => key = m.identity.nodeId ∧ wantValue = true
  | .lookup _ l => l.Open m.identity.nodeId
  | .waiting addr rx (.lookup _ l) => (l.key = m.identity.nodeId ∧ l.wantValue = true) ∧
      (l.Open m.identity.nodeId ∨ addr = m.desc.dhtAddr) ∧ s.Comes m knows addr rx
  | .merging _ (.lookup _ l) => l.Open m.identity.nodeId
  | .found _ _ result => ∀ d ∈ result, d = m.desc
  | .routed _ result => ∀ d, result = .ok d → d = m.desc
  | _ => False

/-- The lookup cannot miss the member any more, or has found it. -/
def Task.Sure (s : DhtNode) : Task → Prop
  | .waiting addr _ _ => knows addr ∨ Contact.fromDesc m.desc ∈ s.kad.rt
  | .merging contacts _ => Contact.fromDesc m.desc ∈ contacts ∨ Contact.fromDesc m.desc ∈ s.kad.rt
  | .found _ _ result => result = some m.desc
  | .routed _ result => result = .ok m.desc
  | _ => Contact.fromDesc m.desc ∈ s.kad.rt

end

namespace Swarm

variable {members : List (Member C)} {addr : SocketAddr} {s t : DhtNode} {m : Member C} {knows : SocketAddr → Prop} {i : Nat}

theorem Manned.enter (ids : (members.map fun m => m.identity.nodeId).Nodup) (among : m ∈ members) (manned : Manned members addr s)
    (caller : Caller) {queried : List NodeId} (fresh : m.identity.nodeId ∉ queried) (batch : List Contact) :
    let next := Lookup.enter caller ⟨m.identity.nodeId, true, s.kad.closest m.identity.nodeId k, queried, batch⟩
    next.Seeks m knows s ∧ (Contact.fromDesc m.desc ∈ s.kad.rt → next.Sure m knows s) := by
  have few : ((s.kad.closest m.identity.nodeId k).filter fun c => c.nodeId ∉ queried).length ≤ alpha :=
    (List.length_filter_le _ _).trans (List.length_take_le _ _)
  dsimp only
  unfold Lookup.enter
  dsimp only
  rw [List.take_of_length_le few]
  split
  next empty =>
    refine ⟨fun d none => (by cases none), fun known => ?_⟩
    -- The member is the nearest of all to its own id, so a table that has it never ends the lookup.
    have left : Contact.fromDesc m.desc ∈ (s.kad.closest m.identity.nodeId k).filter fun c => c.nodeId ∉ queried :=
      List.mem_filter.mpr ⟨manned.closest_own ids among known, by simpa [Contact.fromDesc, m.signed.fields.1] using fresh⟩
    rw [empty] at left
    cases left
  next =>
    refine ⟨⟨rfl, rfl, fresh, fun near => ?_⟩, fun known => known⟩
    obtain ⟨c, member, named⟩ := mem_ids.mp near
    refine mem_ids.mpr ⟨c, List.mem_filter.mpr ⟨member, ?_⟩, named⟩
    simpa [named] using fresh

theorem answered {caller : Caller} {l : Lookup} (wants : l.wantValue = true)
    (going : l.Open m.identity.nodeId ∨ addr = m.desc.dhtAddr) {msg : RpcMsg} (tells : Tells m knows addr msg) :
    let next := Resume.reply (.lookup caller l) (some msg)
    next.Seeks m knows s ∧ (knows addr ∨ Contact.fromDesc m.desc ∈ s.kad.rt → next.Sure m knows s) := by
  cases tells with
  | named contacts =>
    simp only [Resume.reply, wants]
    refine ⟨fun d member => (Option.mem_some.mp member).symm, fun _ => rfl⟩
  | silent apart names =>
    simp only [Resume.reply, wants]
    exact ⟨going.resolve_right apart, Or.imp_left names⟩

theorem Manned.advance (few : members.length ≤ 64) (ids : (members.map fun m => m.identity.nodeId).Nodup) (among : m ∈ members)
    (manned : Manned members addr s) {task : Task} (here : s.tasks.get i = some task) (seeks : task.Seeks m knows s)
    (step : s.advance i task = some t) :
    ∃ next, t.tasks.get i = some next ∧ next.Seeks m knows t ∧ (task.Sure m knows s → next.Sure m knows t) := by
  obtain ⟨u, next, move, rfl⟩ := DhtNode.advance_cases step
  refine ⟨next, Table.get_insert_self .., ?_⟩
  -- Neither `Seeks` nor `Sure` reads the tasks.
  suffices goes : next.Seeks m knows u ∧ (task.Sure m knows s → next.Sure m knows u) by
    cases next with
    | waiting | merging => rename_i resume; cases resume <;> exact goes
    | _ => exact goes
  cases move with
  | cached | uncached | stored | unstored | expired => exact seeks.elim
  | start =>
    obtain ⟨rfl, rfl⟩ := seeks
    exact manned.enter ids among _ (List.not_mem_nil) []
  | @converged caller l ended converged =>
    obtain ⟨sameKey, wants, fresh, left⟩ := seeks
    refine ⟨fun d none => (by cases none), fun known => ?_⟩
    -- Had the node come to know the member, the last round would have asked it.
    obtain ⟨o, before, named⟩ := (of_decide_eq_true converged).2 _ (sameKey ▸ manned.closest_own ids among known)
    have kept := left (mem_ids.mpr ⟨o, before, named.trans m.signed.fields.1⟩)
    rw [ended] at kept
    simp at kept
  | @round caller l ended _ =>
    obtain ⟨key, wantValue, closestSeen, queried, batch⟩ := l
    obtain ⟨rfl, rfl, fresh, -⟩ := seeks
    exact manned.enter ids among caller fresh batch
  | @got addr rx resume msg got =>
    cases resume with
    | calls => exact seeks.elim
    | lookup caller l =>
      obtain ⟨⟨-, wants⟩, going, comes⟩ := seeks
      rcases comes with ⟨empty, -⟩ | ⟨msg', got', tells⟩
      · cases empty.symm.trans got
      · cases got'.symm.trans got
        exact answered wants going tells
  | @closed addr rx resume closed =>
    cases resume with
    | calls => exact seeks.elim
    | lookup caller l =>
      obtain ⟨-, -, ⟨empty, -⟩ | ⟨msg', got', -⟩⟩ := seeks
      · cases empty.symm.trans closed
      · cases got'.symm.trans closed
  | @merging contacts resume =>
    cases resume with
    | calls => exact seeks.elim
    | lookup caller l =>
      refine ⟨seeks, fun sure => ?_⟩
      have new := (manned.vouched.tasks i _ here).1
      rcases sure with told | known
      · exact merged ids among manned.arranged few manned.vouched.table new told
      · exact (room manned.arranged few manned.vouched.table new).2 known
  | found =>
    refine ⟨fun d same => ?_, fun sure => ?_⟩
    · cases same
      exact seeks _ rfl
    · cases sure
      rfl
  | notFound => exact ⟨fun d same => (by cases same), fun sure => by cases sure⟩

end Swarm

/-! ## The node -/

section

variable {m : Member C} {knows : SocketAddr → Prop} {s t : DhtNode} {i : Nat} {task : Task}

theorem Task.Seeks.imp (seeks : task.Seeks m knows s) (comes : ∀ addr rx, s.Comes m knows addr rx → t.Comes m knows addr rx) :
    task.Seeks m knows t := by
  cases task with
  | waiting addr rx resume =>
    cases resume with
    | calls => exact seeks.elim
    | lookup => exact ⟨seeks.1, seeks.2.1, comes addr rx seeks.2.2⟩
  | merging contacts resume => cases resume <;> exact seeks
  | _ => exact seeks

theorem Task.Sure.imp (sure : task.Sure m knows s) (kept : s.kad.rt ⊆ t.kad.rt) : task.Sure m knows t := by
  cases task with
  | waiting | merging => exact sure.imp_right fun known => kept known
  | found | routed => exact sure
  | routeCache | routeStore | start | lookup | calls | expired => exact kept sure

/-- No calls fail or run out of time, none that has clears its slot, and task `i` alone calls. -/
def Quiet (s : DhtNode) (i : Nat) : Event → Prop
  | .call j => j = i
  | .fail _ | .expire _ => False
  | .advance j => ∀ addr resume, s.tasks.get j ≠ some (.expired addr resume)
  | _ => True

namespace DhtNode

theorem Comes.receive (slots : s.Slots) {addr : SocketAddr} {rx : ReplyTx} (comes : s.Comes m knows addr rx) (src : SocketAddr)
    (data : List UInt8) (heard : ∀ msg, rpcDecode C (recvFrom data) = .ok msg → msg.isReply → Tells m knows src msg) :
    (s.receive C src data).Comes m knows addr rx := by
  by_cases reply : ∃ msg tx, rpcDecode C (recvFrom data) = .ok msg ∧ msg.isReply ∧ s.kad.pending.get src = some tx
  · obtain ⟨msg, tx, decoded, isReply, slot⟩ := reply
    rw [receive_reply decoded isReply slot]
    rcases comes with ⟨empty, waits⟩ | ⟨other, got, tells⟩
    · by_cases same : rx = tx
      · subst same
        obtain rfl := slots.single addr src rx waits slot
        exact .inr ⟨msg, Table.get_insert_self .., heard msg decoded isReply⟩
      · have apart : addr ≠ src := by
          rintro rfl
          exact same (Option.some.inj (waits.symm.trans slot))
        exact .inl ⟨(Table.get_insert_of_ne _ _ same).trans empty, (Table.get_remove_of_ne _ apart).trans waits⟩
    · have apart : rx ≠ tx := by
        rintro rfl
        cases got.symm.trans (slots.empty src rx slot).2
      exact .inr ⟨other, (Table.get_insert_of_ne _ _ apart).trans got, tells⟩
  · obtain ⟨pending, channels, -⟩ := receive_other (C := C) (s := s) src data
      fun msg tx decoded isReply slot => reply ⟨msg, tx, decoded, isReply, slot⟩
    unfold Comes
    rwa [pending, channels]

theorem Comes.step (slots : s.Slots) {addr : SocketAddr} {rx : ReplyTx} (comes : s.Comes m knows addr rx) {event : Event}
    (step : Step C s event t) (quiet : Quiet s i event) (calls : event ≠ .call i)
    (heard : ∀ src data, event = .receive src data →
      ∀ msg, rpcDecode C (recvFrom data) = .ok msg → msg.isReply → Tells m knows src msg) :
    t.Comes m knows addr rx := by
  cases step with
  | receive src data => exact comes.receive slots src data (heard src data rfl)
  | start => exact comes
  | advance here step =>
    rcases advance_slots step with ⟨_, _, rfl, -⟩ | ⟨-, pending, channels, -⟩
    · exact absurd here (quiet _ _)
    · unfold Comes
      rwa [pending, channels]
  | call =>
    obtain rfl := quiet
    exact absurd rfl calls
  | fail | expire => exact quiet.elim

end DhtNode

namespace Swarm

variable {members : List (Member C)} {addr : SocketAddr}

theorem Manned.asks (ids : (members.map fun m => m.identity.nodeId).Nodup) (among : m ∈ members) (manned : Manned members addr s)
    (here : s.tasks.get i = some task) (seeks : task.Seeks m knows s) {there : SocketAddr} {msg : RpcMsg} {resume : Resume}
    (asks : task.call? = some (there, msg, resume)) :
    msg = .find m.identity.nodeId true ∧ ∀ rx, (t.channels.get rx = some .empty ∧ t.kad.pending.get there = some rx) →
      s.kad.rt ⊆ t.kad.rt → Task.Seeks m knows t (.waiting there rx resume) ∧
        (task.Sure m knows s → Task.Sure m knows t (.waiting there rx resume)) := by
  cases task with
  | lookup caller l =>
    have vouched := (manned.vouched.tasks i _ here).2
    obtain ⟨sameKey, wants, fresh, left⟩ := seeks
    simp only [Task.call?] at asks
    split at asks
    · cases asks
    next c batch next =>
    cases asks
    refine ⟨by rw [sameKey, wants], fun rx slot kept =>
      ⟨⟨⟨sameKey, wants⟩, ?_, .inl slot⟩, fun known => .inr (kept known)⟩⟩
    -- Either it is the member that is asked now, or the member stays in the batch.
    by_cases named : c.nodeId = m.identity.nodeId
    · right
      rw [contact_of_id ids among (vouched c (next ▸ List.mem_cons_self)) named]
      exact Contact.addr_fromDesc m.signed.fields.2.2.2.2.2
    · refine .inl ⟨sameKey, wants, ?_, fun near => ?_⟩
      · simpa [fresh] using Ne.symm named
      · obtain ⟨other, member, same⟩ := mem_ids.mp (left near)
        rw [next] at member
        rcases List.mem_cons.mp member with rfl | member
        · exact absurd same named
        · exact mem_ids.mpr ⟨other, member, same⟩
  | calls => exact seeks.elim
  | routeCache | routeStore | start | waiting | expired | merging | found | routed => cases asks

theorem Manned.searches (few : members.length ≤ 64) (ids : (members.map fun m => m.identity.nodeId).Nodup) (among : m ∈ members)
    (manned : Manned members addr s) (slots : s.Slots) (here : s.tasks.get i = some task) (seeks : task.Seeks m knows s)
    {event : Event} (step : DhtNode.Step C s event t) (quiet : Quiet s i event) (kept : s.kad.rt ⊆ t.kad.rt)
    (heard : ∀ src data, event = .receive src data →
      ∀ msg, rpcDecode C (recvFrom data) = .ok msg → msg.isReply → Tells m knows src msg) :
    ∃ next, t.tasks.get i = some next ∧ next.Seeks m knows t ∧ (task.Sure m knows s → next.Sure m knows t) := by
  by_cases own : event.task? = some i
  · cases step with
    | receive => cases own
    | start empty =>
      cases own
      cases empty.symm.trans here
    | advance here' step =>
      cases own
      cases here'.symm.trans here
      exact manned.advance few ids among here seeks step
    | @call _ _ there _ _ here' asks =>
      cases own
      cases here'.symm.trans here
      have slot : (s.openAt there).channels.get s.nextTx = some .empty ∧
          (s.openAt there).kad.pending.get there = some s.nextTx := by
        rw [s.openAt_empty there, s.pending_openAt there]
        exact ⟨rfl, Table.get_insert_self ..⟩
      exact ⟨_, Table.get_insert_self .., (manned.asks ids among here seeks asks).2 s.nextTx slot kept⟩
    | fail | expire => exact quiet.elim
  · have calls : event ≠ .call i := by
      rintro rfl
      exact own rfl
    refine ⟨task, (step.other_task own).trans here, ?_, fun sure => sure.imp kept⟩
    exact seeks.imp fun _ _ comes => comes.step slots step quiet calls heard

end Swarm

end

/-! ## The swarm -/

namespace Swarm

variable {members : List (Member C)} {m : Member C} {knows : SocketAddr → Prop} {home : SocketAddr} {i n : Nat} {s t u : Swarm}

theorem all_slots {events : List SwarmEvent} (run : Run (Step C) (start members) events t) :
    t.All (fun _ node => node.Slots) (fun _ => True) := by
  have keeps : Parties.Keeps (DhtNode.conduct C) (fun _ node => node.Slots) (fun _ => True) :=
    ⟨fun _ _ _ _ _ slots moves => ⟨slots.step moves.2.1, fun _ _ => trivial⟩,
      fun _ _ _ _ _ _ slots _ moves => ⟨slots.step moves.2.1, fun _ _ => trivial⟩⟩
  refine keeps.run ⟨fun addr node here => ?_, fun _ _ => trivial⟩ run
  obtain ⟨m, -, -, rfl⟩ := start_get here
  refine ⟨fun _ _ none => ?_, fun _ _ _ none => ?_, fun _ _ _ _ none => ?_⟩ <;> cases none

/-- Calls of the node at `home` are those of task `i`, and succeed; what comes to it or from it has been sent since. -/
def Calm (home : SocketAddr) (i n : Nat) (s : Swarm) : SwarmEvent → Swarm → Prop
  | .act addr event, _ => addr = home → ∀ node, s.nodes.get home = some node → Quiet node i event
  | .arrive d, _ => d.src = home ∨ d.dst = home → d ∈ s.sent.drop n

structure Searching (m : Member C) (knows : SocketAddr → Prop) (home : SocketAddr) (i n : Nat) (sure : Prop) (s : Swarm) : Prop where
  spoken : ∀ d ∈ s.sent.drop n, Spoken m knows home d
  since : n ≤ s.sent.length
  seeks : ∃ node task, s.nodes.get home = some node ∧ node.tasks.get i = some task ∧ task.Seeks m knows node ∧
    (sure → task.Sure m knows node)

/-- What the other steps rest on: all nodes are manned, and whoever is said to know the member does. -/
structure Backed (members : List (Member C)) (m : Member C) (knows : SocketAddr → Prop) (s : Swarm) : Prop where
  manned : s.All (Manned members) (Speaks (Own members))
  slots : s.All (fun _ node => node.Slots) (fun _ => True)
  own : ∃ node, s.nodes.get m.desc.dhtAddr = some node ∧ node.kad.store.get m.identity.nodeId = some m.desc
  knows : ∀ addr, knows addr → s.Knows m addr

theorem Backed.tells (backed : Backed members m knows s) (ids : (members.map fun m => m.identity.nodeId).Nodup)
    (among : m ∈ members) {addr : SocketAddr} {node : DhtNode} (present : s.nodes.get addr = some node) :
    Tells m knows addr (.found (node.kad.closest m.identity.nodeId k) (node.kad.store.get m.identity.nodeId)) := by
  have manned := backed.manned.nodes addr node present
  cases stored : node.kad.store.get m.identity.nodeId with
  | some d =>
    obtain rfl := manned.stored_own ids among stored
    exact .named _
  | none =>
    refine .silent ?_ fun known => ?_
    · rintro rfl
      obtain ⟨other, there, has⟩ := backed.own
      cases present.symm.trans there
      cases stored.symm.trans has
    · obtain ⟨other, there, has⟩ := backed.knows addr known
      cases present.symm.trans there
      exact manned.closest_own ids among (has.resolve_right fun has => by cases stored.symm.trans has)

variable {addr : SocketAddr} {node node' : DhtNode} {event : Event} {out : List (SocketAddr × List UInt8)}

theorem Backed.sends (backed : Backed members m knows s)
    (verifies : ∀ key msg, C.verify (C.verifyingKey key) msg (C.sign key msg) = true)
    (ids : (members.map fun m => m.identity.nodeId).Nodup) (among : m ∈ members) (present : s.nodes.get addr = some node)
    (sends : DhtNode.Sends C node event out) (quiet : addr = home → Quiet node i event)
    (seeks : addr = home → ∃ task, node.tasks.get i = some task ∧ task.Seeks m knows node)
    (heard : ∀ src data, event = .receive src data → src = home →
      ∀ msg, rpcDecode C (recvFrom data) = .ok msg → msg = .find m.identity.nodeId true ∨ msg.isReply) :
    ∀ sent ∈ out, Spoken m knows home ⟨addr, sent.1, sent.2⟩ := by
  have accepted := fun d (own : Own members d) => accepted_own verifies own
  have manned := backed.manned.nodes addr node present
  intro sent member
  cases sends with
  | nothing => cases member
  | @call j task there msg resume here asks =>
    obtain ⟨vouched, request, -⟩ := (manned.vouched.tasks j task here).call asks
    have few : msg.contacts.length ≤ k := by
      rw [request.no_contacts]
      exact Nat.zero_le _
    obtain ⟨-, reads⟩ := vouched.read_sendRaw accepted few sent member
    refine ⟨fun ours msg' decoded => .inl ?_, fun _ msg' decoded reply => ?_⟩
    · obtain ⟨own, here', seeks⟩ := seeks ours
      obtain rfl := quiet ours
      cases here.symm.trans here'
      exact (reads msg' decoded).trans (manned.asks (t := node) ids among here seeks asks).1
    · obtain rfl := reads msg' decoded
      cases msg' with
      | ping | store | find => cases reply
      | pong | found => exact request.elim
  | @pong src data nonce decoded =>
    have bare : (pingResponse nonce).Vouched (Own members) := RpcMsg.vouched_of_bare rfl rfl
    obtain ⟨dst, reads⟩ := bare.read_sendRaw accepted (Nat.zero_le _) sent member
    refine ⟨fun _ msg' read => .inr ?_, fun back => ?_⟩
    · rw [reads msg' read]
      rfl
    · -- No PING has come from `home`.
      rcases heard src data rfl (dst.symm.trans back) _ decoded with same | reply
      · cases same
      · cases reply
  | @found src data key wantValue decoded =>
    have answer : (RpcMsg.found (node.kad.closest key k) (if wantValue then node.kad.store.get key else none)).Vouched
        (Own members) := by
      refine ⟨fun c member => manned.vouched.table c (node.kad.closest_subset _ _ member), fun d member => ?_⟩
      have value : (if wantValue then node.kad.store.get key else none) = some d := Option.mem_toList.mp member
      split at value
      · exact (manned.vouched.store key d value).1
      · cases value
    obtain ⟨dst, reads⟩ := answer.read_sendRaw accepted (List.length_take_le k _) sent member
    refine ⟨fun _ msg' read => .inr ?_, fun back msg' read _ => ?_⟩
    · rw [reads msg' read]
      rfl
    · rw [reads msg' read]
      rcases heard src data rfl (dst.symm.trans back) _ decoded with same | reply
      · cases same
        exact backed.tells ids among present
      · cases reply

theorem Searching.step {sure : Prop} (searching : Searching m knows home i n sure s) (backed : Backed members m knows s)
    (verifies : ∀ key msg, C.verify (C.verifyingKey key) msg (C.sign key msg) = true) (few : members.length ≤ 64)
    (ids : (members.map fun m => m.identity.nodeId).Nodup) (among : m ∈ members) {event : SwarmEvent}
    (step : Such (Step C) (Calm home i n) s event t) : Searching m knows home i n sure t := by
  obtain ⟨spoken, since, host, task, present, here, seeks, sure'⟩ := searching
  -- One node moves; what it hears from `home`, or at `home`, is among what was spoken.
  have moved {addr : SocketAddr} {node node' : DhtNode} {cause : Cause SocketAddr (List UInt8) Event}
      {out : List (SocketAddr × List UInt8)} (there : s.nodes.get addr = some node) (moves : DhtNode.conduct C node cause node' out)
      (fine : ∀ src data, cause = .arrival src data → Speaks (Own members) data)
      (quiet : addr = home → Quiet node i (eventOf cause))
      (fresh : ∀ src data, eventOf cause = .receive src data → src = home ∨ addr = home →
        Spoken m knows home ⟨src, addr, data⟩) :
      Searching m knows home i n sure (s.update addr node' out) := by
    have manned := backed.manned.nodes addr node there
    refine ⟨fun d member => ?_, ?_, ?_⟩
    · rw [Parties.update, List.drop_append_of_le_length since] at member
      rcases List.mem_append.mp member with old | new
      · exact spoken d old
      · obtain ⟨sent, listed, rfl⟩ := List.mem_map.mp new
        refine backed.sends verifies ids among there (moves.2.1.sends moves.2.2) quiet (fun ours => ?_) ?_ sent listed
        · subst ours
          cases there.symm.trans present
          exact ⟨task, here, seeks⟩
        · exact fun src data received ours => (fresh src data received (.inl ours)).asks ours
    · rw [Parties.update, List.length_append]
      omega
    · by_cases ours : addr = home
      · subst ours
        cases there.symm.trans present
        have kept := (Moves.learns verifies few ids ⟨manned, fine, out, moves⟩).1
        obtain ⟨next, here', seeks', goes⟩ := manned.searches few ids among (backed.slots.nodes addr host there) here seeks
          moves.2.1 (quiet rfl) kept fun src data received => (fresh src data received (.inr rfl)).answers rfl
        exact ⟨node', next, Table.get_insert_self .., here', seeks', fun known => goes (sure' known)⟩
      · exact ⟨host, task, (Table.get_insert_of_ne _ _ (Ne.symm ours)).trans present, here, seeks, sure'⟩
  obtain ⟨step, calm⟩ := step
  cases step with
  | @act addr label node node' out there moves =>
    have quiet (ours : addr = home) : Quiet node i label := calm ours node (ours ▸ there)
    refine moved there moves (fun _ _ same => by cases same) quiet fun src data received _ => ?_
    obtain rfl : label = .receive src data := received
    exact moves.1.elim
  | @arrive d node node' out sent there moves =>
    refine moved there moves (fun src data same => ?_) (fun _ => trivial) fun src data received between => ?_
    · cases same
      exact backed.manned.sent d sent
    · cases received
      exact spoken d (calm between)

theorem Knows.stays {addr : SocketAddr} (knows : s.Knows m addr)
    (verifies : ∀ key msg, C.verify (C.verifyingKey key) msg (C.sign key msg) = true) (few : members.length ≤ 64)
    (ids : (members.map fun m => m.identity.nodeId).Nodup) (among : m ∈ members) {before after : List SwarmEvent}
    (reach : Run (Step C) (start members) before s) (run : Run (Step C) s after t) : t.Knows m addr := by
  obtain ⟨node, present, has⟩ := knows
  obtain ⟨node', there, moves⟩ := Parties.local_run (keeps_manned verifies) (all_manned verifies reach) run present
  refine ⟨node', there, ?_⟩
  clear there run
  generalize after.filterMap (Parties.causeAt addr) = causes at moves
  induction moves with
  | nil => exact has
  | snoc _ last ih =>
    exact ih.imp (fun known => (Moves.learns verifies few ids last).1 known) fun has =>
      (Moves.stored verifies ids last among).mpr (.inl has)

theorem backed_run (verifies : ∀ key msg, C.verify (C.verifyingKey key) msg (C.sign key msg) = true)
    (few : members.length ≤ 64) (apart : (members.map fun m => m.desc.dhtAddr).Nodup)
    (ids : (members.map fun m => m.identity.nodeId).Nodup) (among : m ∈ members) {before after : List SwarmEvent}
    (reach : Run (Step C) (start members) before s) (run : Run (Step C) s after t) : Backed members m (s.Knows m) t where
  manned := all_manned verifies (reach.trans run)
  slots := all_slots (reach.trans run)
  own := by
    obtain ⟨node, present, stored⟩ := stored_iff_received verifies members apart ids m among (reach.trans run)
    exact ⟨node, present, (stored m among).mpr (.inl rfl)⟩
  knows _ known := known.stays verifies few ids among reach run

theorem Searching.run {sure : Prop} (verifies : ∀ key msg, C.verify (C.verifyingKey key) msg (C.sign key msg) = true)
    (few : members.length ≤ 64) (apart : (members.map fun m => m.desc.dhtAddr).Nodup)
    (ids : (members.map fun m => m.identity.nodeId).Nodup) (among : m ∈ members) {before between after : List SwarmEvent}
    (reach : Run (Step C) (start members) before s) (sofar : Run (Step C) s between t)
    (searching : Searching m (s.Knows m) home i n sure t) (run : Run (Such (Step C) (Calm home i n)) t after u) :
    Searching m (s.Knows m) home i n sure u := by
  induction run with
  | nil => exact searching
  | snoc calm last ih =>
    exact ih.step (backed_run verifies few apart ids among reach (sofar.trans calm.forget)) verifies few ids among last

/-- The lookup goes on, and has come upon the member: its node has the contact or has just been told it, or it waits for the
answer of somebody who knew the member when it began. -/
def ComesUpon (begun : Swarm) (m : Member C) (node : DhtNode) : Task → Prop
  | .waiting addr _ _ => begun.Knows m addr ∨ Contact.fromDesc m.desc ∈ node.kad.rt
  | .merging contacts _ => Contact.fromDesc m.desc ∈ contacts ∨ Contact.fromDesc m.desc ∈ node.kad.rt
  | .found _ _ _ | .routed _ _ => False
  | _ => Contact.fromDesc m.desc ∈ node.kad.rt

theorem Searching.begin {seeker : DhtNode} (present : s.nodes.get home = some seeker) {caller : Caller}
    (begins : seeker.tasks.get i = some (.start caller m.identity.nodeId true)) :
    Searching m (s.Knows m) home i s.sent.length False s where
  spoken := by simp
  since := Nat.le_refl _
  seeks := ⟨seeker, _, present, begins, ⟨rfl, rfl⟩, False.elim⟩

theorem Searching.upon (searching : Searching m (s.Knows m) home i n False t) {node : DhtNode} {task : Task}
    (present : t.nodes.get home = some node) (here : node.tasks.get i = some task) (upon : ComesUpon s m node task) :
    Searching m (s.Knows m) home i n True t := by
  obtain ⟨_, _, present', here', seeks, -⟩ := searching.seeks
  cases present.symm.trans present'
  cases here.symm.trans here'
  refine ⟨searching.spoken, searching.since, node, task, present, here, seeks, fun _ => ?_⟩
  cases task with
  | found | routed => exact upon.elim
  | waiting | expired | merging | routeCache | routeStore | start | lookup | calls => exact upon

/-- A lookup of a member, whatever the swarm did before: while calls of its node do not fail and nothing older comes between,
it returns nothing but the member's own descriptor; and once it has asked somebody who knew the member when it began, or its
node has come to know the member itself, it does return this descriptor, whenever it ends. -/
theorem finds (verifies : ∀ key msg, C.verify (C.verifyingKey key) msg (C.sign key msg) = true) (members : List (Member C))
    (few : members.length ≤ 64) (apart : (members.map fun m => m.desc.dhtAddr).Nodup)
    (ids : (members.map fun m => m.identity.nodeId).Nodup) (m : Member C) (among : m ∈ members) {before during : List SwarmEvent}
    (reach : Run (Step C) (start members) before s) {seeker : DhtNode} (present : s.nodes.get home = some seeker) {caller : Caller}
    (begins : seeker.tasks.get i = some (.start caller m.identity.nodeId true))
    (run : Run (Such (Step C) (Calm home i s.sent.length)) s during t) :
    ∃ node task, t.nodes.get home = some node ∧ node.tasks.get i = some task ∧
      (∀ caller' key d, task = .found caller' key (some d) → d = m.desc) ∧ (∀ target d, task = .routed target (.ok d) → d = m.desc) ∧
      (ComesUpon s m node task → ∀ after u, Run (Such (Step C) (Calm home i s.sent.length)) t after u →
        ∃ node' task', u.nodes.get home = some node' ∧ node'.tasks.get i = some task' ∧
          (∀ caller' key result, task' = .found caller' key result → result = some m.desc) ∧
          ∀ target result, task' = .routed target result → result = .ok m.desc) := by
  have sofar := (Searching.begin present begins).run verifies few apart ids among reach (.nil s) run
  obtain ⟨node, task, there, here, seeks, -⟩ := sofar.seeks
  refine ⟨node, task, there, here, ?_, ?_, fun upon after u later => ?_⟩
  · rintro caller' key d rfl
    exact seeks d rfl
  · rintro target d rfl
    exact seeks d rfl
  · have certain := sofar.upon there here upon
    obtain ⟨node', task', there', here', -, ends⟩ := (certain.run verifies few apart ids among reach run.forget later).seeks
    refine ⟨node', task', there', here', ?_, ?_⟩
    · rintro caller' key result rfl
      exact ends trivial
    · rintro target result rfl
      exact ends trivial

end Swarm

namespace Transparent

open Nbf.Crypto.Transparent

theorem near_seeks : ∃ events s seeker, Run (Swarm.Step crates) (Swarm.start twoMembers) events s ∧
    s.nodes.get nearMember.desc.dhtAddr = some seeker ∧
    seeker.tasks.get 0 = some (.start .direct farMember.identity.nodeId true) ∧
      Contact.fromDesc farMember.desc ∈ seeker.kad.rt := by
  have far := Swarm.start_present twoMembers_apart (m := farMember) (by simp [twoMembers])
  have near := Swarm.start_present twoMembers_apart (m := nearMember) (by simp [twoMembers])
  obtain ⟨events, s, run, -, here, -⟩ := introduced far rfl rfl near (by decide)
  have manned : Swarm.Manned twoMembers nearMember.desc.dhtAddr (.spawn nearMember.identity nearMember.desc []) :=
    Swarm.manned_spawn (by simp [twoMembers])
  have single : ∀ c ∈ [Contact.fromDesc farMember.desc], c.Vouched (Own twoMembers) := fun c member =>
    ⟨farMember.desc, ⟨farMember, by simp [twoMembers], rfl⟩, List.mem_singleton.mp member⟩
  have known := Swarm.merged twoMembers_ids (m := farMember) (by simp [twoMembers]) (manned.arranged.keep farMember.desc)
    (by simp [twoMembers]) manned.vouched.table single (List.mem_singleton_self _)
  have begins := DhtNode.Step.start (C := crates) (s := { DhtNode.spawn nearMember.identity nearMember.desc [] with
    kad := ((DhtNode.spawn nearMember.identity nearMember.desc []).kad.handle farMember.desc.dhtAddr (.store farMember.desc)).1 })
    (i := 0) rfl (.lookup farMember.identity.nodeId true)
  exact ⟨_, _, _, run.snoc (Swarm.acts here begins trivial (List.append_nil _).symm), Table.get_insert_self ..,
    Table.get_insert_self .., known⟩

theorem far_found : ∃ (s : Swarm) (seeker : DhtNode), s.nodes.get nearMember.desc.dhtAddr = some seeker ∧
    seeker.tasks.get 0 = some (.start .direct farMember.identity.nodeId true) ∧
    ∀ after u, Run (Such (Swarm.Step crates) (Swarm.Calm nearMember.desc.dhtAddr 0 s.sent.length)) s after u →
      ∃ node task, u.nodes.get nearMember.desc.dhtAddr = some node ∧ node.tasks.get 0 = some task ∧
        ∀ caller key result, task = .found caller key result → result = some farMember.desc := by
  obtain ⟨before, s, seeker, reach, present, begins, known⟩ := near_seeks
  obtain ⟨node, task, there, here, -, -, sure⟩ := Swarm.finds lawful.verify_sign twoMembers (by decide) twoMembers_apart
    twoMembers_ids farMember (by simp [twoMembers]) reach present begins (.nil s)
  cases present.symm.trans there
  cases begins.symm.trans here
  refine ⟨s, seeker, present, begins, fun after u later => ?_⟩
  obtain ⟨node', task', there', here', found, -⟩ := sure known after u later
  exact ⟨node', task', there', here', found⟩

end Transparent
end Nbf.Dht

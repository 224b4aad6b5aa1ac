import Nbf.Dht.Asking
import Nbf.Dht.Finding
import Nbf.Dht.Served
import Mathlib.Data.List.Nodup

/-! A lookup in a swarm can always be brought to its end: whoever it waits for is there to answer. -/

set_option autoImplicit false

namespace Nbf.Dht

open Nbf.Library Nbf.Crypto Nbf.Net

variable {C : Crates} {members : List (Member C)} {m : Member C} {home : SocketAddr} {i n : Nat}

structure Lookup.Once (members : List (Member C)) (l : Lookup) : Prop where
  once : (l.queried ++ l.batch.map (·.nodeId)).Nodup
  among : l.queried ⊆ members.map (·.identity.nodeId)

def Task.Able (members : List (Member C)) (m : Member C) (home : SocketAddr) (since : List (Datagram SocketAddr (List UInt8)))
    (s : DhtNode) : Task → Prop
  | .lookup _ l => l.Once members
  | .waiting addr rx (.lookup _ l) => l.Once members ∧ (∃ p ∈ members, p.desc.dhtAddr = addr) ∧
      (s.channels.get rx = some .empty →
        ∃ data, ⟨home, addr, data⟩ ∈ since ∧ rpcDecode C (recvFrom data) = .ok (.find m.identity.nodeId true))
  | .merging _ (.lookup _ l) => l.Once members
  | _ => True

/-- How many steps it takes to end the lookup, at most. -/
def Task.cost (bound : Nat) (s : DhtNode) : Task → Nat
  | .start _ _ _ => 6 * bound + 2
  | .lookup _ l => 6 * (bound - l.queried.length) + if l.batch.isEmpty then 2 else 1
  | .waiting _ rx (.lookup _ l) => 6 * (bound - l.queried.length) +
      match s.channels.get rx with
      | some .empty => 6
      | _ => 4
  | .merging _ (.lookup _ l) => 6 * (bound - l.queried.length) + 3
  | .found .route _ _ => 1
  | _ => 0

section

variable {since : List (Datagram SocketAddr (List UInt8))} {s t : DhtNode} {task : Task} {knows : SocketAddr → Prop}

theorem Lookup.Once.enter {l : Lookup} (once : l.Once members) (ended : l.batch = [])
    (distinct : (l.closestSeen.map (·.nodeId)).Nodup) (caller : Caller) :
    (Lookup.enter caller l).Able members m home since s ∧
      (Lookup.enter caller l).cost members.length s + 1 ≤ 6 * (members.length - l.queried.length) + 2 := by
  unfold Lookup.enter
  split
  next =>
    refine ⟨trivial, ?_⟩
    cases caller <;> simp [Task.cost]
  next batch nonempty =>
    refine ⟨⟨?_, once.among⟩, ?_⟩
    · have asked := once.once
      rw [ended, List.map_nil, List.append_nil] at asked
      refine List.nodup_append.mpr ⟨asked, distinct.sublist (((List.take_sublist _ _).trans List.filter_sublist).map _), ?_⟩
      rintro id old id' new rfl
      obtain ⟨c, member, rfl⟩ := List.mem_map.mp new
      have fresh := List.of_mem_filter (List.mem_of_mem_take member)
      exact of_decide_eq_true fresh old
    · cases taken : (l.closestSeen.filter fun c => c.nodeId ∉ l.queried).take alpha with
      | nil => exact absurd taken nonempty
      | cons => simp [Task.cost]

theorem able_advance (distinct : ∀ key, ((s.kad.closest key k).map (·.nodeId)).Nodup) (here : s.tasks.get i = some task)
    (seeks : task.Seeks m knows s) (able : task.Able members m home since s) (step : s.advance i task = some t) :
    ∃ next, t.tasks.get i = some next ∧ next.Able members m home since t ∧
      next.cost members.length t + 1 ≤ task.cost members.length s := by
  obtain ⟨u, next, move, rfl⟩ := DhtNode.advance_cases step
  refine ⟨next, Table.get_insert_self .., ?_⟩
  -- Neither `Able` nor `cost` reads the tasks.
  suffices goes : next.Able members m home since u ∧ next.cost members.length u + 1 ≤ task.cost members.length s by
    cases next with
    | waiting | merging => rename_i resume; cases resume <;> exact goes
    | found caller => cases caller <;> exact goes
    | _ => exact goes
  cases move with
  | cached | uncached | stored | unstored | expired => exact seeks.elim
  | @start caller key wantValue =>
    have none : Lookup.Once members ⟨key, wantValue, s.kad.closest key k, [], []⟩ := ⟨.nil, List.nil_subset _⟩
    exact none.enter rfl (distinct key) caller
  | @converged caller l ended =>
    refine ⟨trivial, ?_⟩
    cases caller <;> simp [Task.cost, ended]
  | @round caller l ended =>
    have again : Lookup.Once members { l with closestSeen := s.kad.closest l.key k } := ⟨able.once, able.among⟩
    have enters : (Lookup.enter caller { l with closestSeen := s.kad.closest l.key k }).Able members m home since s ∧ _ :=
      again.enter ended (distinct l.key) caller
    refine ⟨enters.1, ?_⟩
    simpa [Task.cost, ended] using enters.2
  | @got addr rx resume msg got =>
    cases resume with
    | calls => exact seeks.elim
    | lookup caller l =>
      have costs : Task.cost members.length s (.waiting addr rx (.lookup caller l)) =
          6 * (members.length - l.queried.length) + 4 := by simp only [Task.cost, got]
      rw [costs]
      rcases reply_lookup caller l (some msg) with same | ⟨contacts, same⟩ | ⟨d, same⟩
      · rw [same]
        refine ⟨able.1, ?_⟩
        simp only [Task.cost]
        split <;> omega
      · rw [same]
        exact ⟨able.1, by simp [Task.cost]⟩
      · rw [same]
        refine ⟨trivial, ?_⟩
        cases caller <;> simp [Task.cost]
  | @closed addr rx resume closed =>
    cases resume with
    | calls => exact seeks.elim
    | lookup caller l =>
      refine ⟨able.1, ?_⟩
      simp only [Task.cost, closed, Resume.reply, Resume.task]
      split <;> omega
  | @merging contacts resume =>
    cases resume with
    | calls => exact seeks.elim
    | lookup caller l =>
      refine ⟨able, ?_⟩
      simp only [Task.cost, Resume.task]
      split <;> omega
  | found | notFound => exact ⟨trivial, by simp [Task.cost]⟩

theorem able_call {addr : SocketAddr} (manned : Swarm.Manned members addr s) (here : s.tasks.get i = some task)
    (able : task.Able members m home since s) (seeks : task.Seeks m knows s) {there : SocketAddr} {msg : RpcMsg} {resume : Resume}
    (asks : task.call? = some (there, msg, resume)) {rx : ReplyTx} (empty : t.channels.get rx = some .empty)
    {data : List UInt8} (sent : ⟨home, there, data⟩ ∈ since)
    (decoded : rpcDecode C (recvFrom data) = .ok (.find m.identity.nodeId true)) :
    Task.Able members m home since t (.waiting there rx resume) ∧
      Task.cost members.length t (.waiting there rx resume) + 1 ≤ task.cost members.length s := by
  cases task with
  | lookup caller l =>
    have vouched := (manned.vouched.tasks i _ here).2
    obtain ⟨once, among⟩ := able
    simp only [Task.call?] at asks
    split at asks
    · cases asks
    next c batch next =>
    cases asks
    obtain ⟨_, ⟨p, listed, rfl⟩, rfl⟩ := vouched c (next ▸ List.mem_cons_self)
    rw [next, List.map_cons, List.append_cons] at once
    have among' : l.queried ++ [(Contact.fromDesc p.desc).nodeId] ⊆ members.map (·.identity.nodeId) := by
      refine List.append_subset.mpr ⟨among, ?_⟩
      simpa using ⟨p, listed, p.signed.fields.1.symm⟩
    have more := (List.subperm_of_subset (List.nodup_append.mp once).1 among').length_le
    refine ⟨⟨⟨once, among'⟩, ⟨p, listed, ?_⟩, fun _ => ⟨data, sent, decoded⟩⟩, ?_⟩
    · exact (Contact.addr_fromDesc p.signed.fields.2.2.2.2.2).symm
    · simp only [List.length_append, List.length_singleton, List.length_map] at more ⊢
      simp only [Task.cost, empty, next, List.isEmpty_cons, List.length_append, List.length_singleton]
      simp only [Bool.false_eq_true, if_false]
      omega
  | calls => exact seeks.elim
  | routeCache | routeStore | start | waiting | expired | merging | found | routed => cases asks

end
theorem Task.Able.imp {since since' : List (Datagram SocketAddr (List UInt8))} {s t : DhtNode} {task : Task}
    (able : task.Able (C := C) members m home since s) (grown : since ⊆ since')
    (empties : ∀ rx, t.channels.get rx = some .empty → s.channels.get rx = some .empty) :
    task.Able (C := C) members m home since' t := by
  cases task with
  | waiting addr rx resume =>
    cases resume with
    | calls => trivial
    | lookup =>
      refine ⟨able.1, able.2.1, fun empty => ?_⟩
      obtain ⟨data, sent, decoded⟩ := able.2.2 (empties rx empty)
      exact ⟨data, grown sent, decoded⟩
  | merging contacts resume => cases resume <;> exact able
  | _ => exact able

theorem DhtNode.Step.still_empty {s t : DhtNode} {event : Event} (step : Step C s event t) (quiet : Quiet s i event)
    (calls : event ≠ .call i) (rx : ReplyTx) (empty : t.channels.get rx = some .empty) : s.channels.get rx = some .empty := by
  cases step with
  | receive src data =>
    generalize received : s.receive C src data = t at empty
    have move : Receive C s src data t := received ▸ receive_cases C s src data
    cases move with
    | reply =>
      rcases Table.get_insert_some empty with ⟨-, same⟩ | ⟨-, old⟩
      · cases same
      · exact old
    | dropped | unasked | ping | store | find => exact empty
  | start => exact empty
  | advance here step =>
    rcases advance_slots step with ⟨_, _, rfl, -⟩ | ⟨-, -, channels, -⟩
    · exact absurd here (quiet _ _)
    · rwa [channels] at empty
  | call =>
    obtain rfl := quiet
    exact absurd rfl calls
  | fail | expire => exact quiet.elim

namespace Swarm

variable {s t u : Swarm} {knows : SocketAddr → Prop}

def Able (members : List (Member C)) (m : Member C) (home : SocketAddr) (i n : Nat) (s : Swarm) : Prop :=
  ∀ node task, s.nodes.get home = some node → node.tasks.get i = some task → task.Able (C := C) members m home (s.sent.drop n) node

theorem find_sent (key : NodeId) (wantValue : Bool) (dst : SocketAddr) :
    ∃ data, Kademlia.sendRaw dst (.find key wantValue) = [(dst, data)] ∧
      rpcDecode C (recvFrom data) = .ok (.find key wantValue) := by
  obtain ⟨data, encoded, decoded⟩ := rpcDecode_recvFrom (Nat.zero_le _)
    (rpcDecode_rpcEncode (C := C) (.find key wantValue) (Nat.zero_le _) fun d member => by cases member)
  exact ⟨data, by rw [Kademlia.sendRaw, encoded], decoded⟩

theorem Able.step {sure : Prop} (able : Able members m home i n s) (searching : Searching m knows home i n sure s)
    (backed : Backed members m knows s) (ids : (members.map fun m => m.identity.nodeId).Nodup) (among : m ∈ members)
    {event : SwarmEvent} (step : Such (Step C) (Calm home i n) s event t) : Able members m home i n t := by
  obtain ⟨host, task, present, here, seeks, -⟩ := searching.seeks
  have able := able host task present here
  have moved {addr : SocketAddr} {node node' : DhtNode} {cause : Cause SocketAddr (List UInt8) Event}
      {out : List (SocketAddr × List UInt8)} (there : s.nodes.get addr = some node) (moves : DhtNode.conduct C node cause node' out)
      (quiet : addr = home → Quiet node i (eventOf cause)) : Able members m home i n (s.update addr node' out) := by
    intro after task' present' here'
    have more : (s.update addr node' out).sent.drop n = s.sent.drop n ++ out.map fun sent => ⟨addr, sent.1, sent.2⟩ :=
      List.drop_append_of_le_length searching.since
    rw [more]
    have grown := List.subset_append_left (s.sent.drop n) (out.map fun sent => (⟨addr, sent.1, sent.2⟩ : Datagram _ _))
    by_cases ours : addr = home
    · subst ours
      cases there.symm.trans present
      have manned := backed.manned.nodes addr host there
      obtain rfl := Option.some.inj ((Table.get_insert_self ..).symm.trans present')
      by_cases own : (eventOf cause).task? = some i
      · obtain ⟨-, step, sent⟩ := moves
        generalize eventOf cause = event at step quiet own
        cases step with
        | receive => cases own
        | start empty =>
          cases own
          cases empty.symm.trans here
        | advance here'' step =>
          cases own
          cases here''.symm.trans here
          have distinct (key : NodeId) : ((host.kad.closest key k).map (·.nodeId)).Nodup :=
            ((sortByDist_ascending key manned.arranged.ascending.nodup).take k).nodup
          obtain ⟨next, now, able', -⟩ := able_advance distinct here seeks able step
          cases now.symm.trans here'
          exact able'.imp grown fun rx empty => empty
        | @call _ _ dst msg resume here'' asks =>
          cases own
          cases here''.symm.trans here
          cases (Table.get_insert_self ..).symm.trans here'
          obtain rfl := (manned.asks (t := host) ids among here seeks asks).1
          obtain ⟨data, sends, decoded⟩ := find_sent (C := C) m.identity.nodeId true dst
          obtain rfl : out = [(dst, data)] := (List.append_cancel_left sent).symm.trans sends
          have member := List.mem_append_right (s.sent.drop n) (List.mem_singleton_self (⟨addr, dst, data⟩ : Datagram _ _))
          exact (able_call manned here (able.imp grown fun rx empty => empty) seeks asks (host.openAt_empty dst) member decoded).1
        | fail | expire => exact (quiet rfl).elim
      · have calls : eventOf cause ≠ .call i := by
          intro same
          rw [same] at own
          exact own rfl
        have same := (moves.2.1.other_task own).symm.trans here'
        cases here.symm.trans same
        exact able.imp grown fun rx empty => moves.2.1.still_empty (quiet rfl) calls rx empty
    · have same := (Table.get_insert_of_ne _ _ (Ne.symm ours)).symm.trans present'
      cases present.symm.trans same
      cases here.symm.trans here'
      exact able.imp grown fun rx empty => empty
  obtain ⟨step, calm⟩ := step
  cases step with
  | act there moves => exact moved there moves fun ours => calm ours _ (ours ▸ there)
  | arrive _ there moves => exact moved there moves fun _ => trivial

def Nearer (members : List (Member C)) (home : SocketAddr) (i n : Nat) (s : Swarm) (cost : Nat) : Prop :=
  ∃ events u node task, Run (Such (Step C) (Calm home i n)) s events u ∧ u.nodes.get home = some node ∧
    node.tasks.get i = some task ∧ 0 < events.length ∧ events.length + task.cost members.length node ≤ cost

theorem Nearer.own {node node' : DhtNode} {task next : Task} (present : s.nodes.get home = some node) {event : Event}
    (step : DhtNode.Step C node event node') (fair : Fair (.own event)) (quiet : Quiet node i event)
    {out : List (SocketAddr × List UInt8)} (sent : node'.sent = node.sent ++ out) (here : node'.tasks.get i = some next)
    (less : next.cost members.length node' + 1 ≤ task.cost members.length node) :
    Nearer members home i n s (task.cost members.length node) := by
  have calm : Calm home i n s (.act home event) (s.update home node' out) := by
    intro _ other present'
    cases present.symm.trans present'
    exact quiet
  refine ⟨_, _, node', next, .single ⟨acts present step fair sent, calm⟩, Table.get_insert_self .., here, ?_, ?_⟩
  · simp
  · simpa [Nat.add_comm] using less

theorem Nearer.answered {sure : Prop} (searching : Searching m knows home i n sure s) (backed : Backed members m knows s)
    (verifies : ∀ key msg, C.verify (C.verifyingKey key) msg (C.sign key msg) = true) {node : DhtNode}
    (present : s.nodes.get home = some node) {addr : SocketAddr} {rx : ReplyTx} {caller : Caller} {l : Lookup}
    (here : node.tasks.get i = some (.waiting addr rx (.lookup caller l))) (empty : node.channels.get rx = some .empty)
    (slot : node.kad.pending.get addr = some rx) {peer : DhtNode} (there : s.nodes.get addr = some peer) {data : List UInt8}
    (sent : ⟨home, addr, data⟩ ∈ s.sent.drop n) (decoded : rpcDecode C (recvFrom data) = .ok (.find m.identity.nodeId true)) :
    Nearer members home i n s (Task.cost members.length node (.waiting addr rx (.lookup caller l))) := by
  have sound : peer.kad.Sound C := by
    intro key d stored
    obtain ⟨⟨p, -, rfl⟩, named⟩ := (backed.manned.nodes addr peer there).vouched.store key d stored
    exact ⟨named, p.signed.verified_of verifies⟩
  obtain ⟨bytes, answers, fits, read⟩ := DhtNode.receive_find home sound decoded
  rw [← fits] at read
  have asked : Step C s (.arrive ⟨home, addr, data⟩)
      (s.update addr { peer with sent := peer.sent ++ [(home, bytes)] } [(home, bytes)]) := by
    refine .arrive (List.mem_of_mem_drop sent) there ⟨trivial, ?_, rfl⟩
    rw [← answers]
    exact .receive peer home data
  -- The lookup may ask its own node: then the answer is one of the datagrams it has sent.
  obtain ⟨sent', now⟩ : ∃ sent',
      (s.update addr { peer with sent := peer.sent ++ [(home, bytes)] } [(home, bytes)]).nodes.get home =
      some { node with sent := sent' } := by
    by_cases ours : addr = home
    · subst ours
      cases there.symm.trans present
      exact ⟨_, Table.get_insert_self ..⟩
    · exact ⟨node.sent, (Table.get_insert_of_ne _ _ (Ne.symm ours)).trans present⟩
  have back : ⟨addr, home, bytes⟩ ∈ (s.sent ++ [(⟨addr, home, bytes⟩ : Datagram SocketAddr (List UInt8))]).drop n := by
    rw [List.drop_append_of_le_length searching.since]
    exact List.mem_append_right _ (List.mem_singleton_self _)
  let reply : RpcMsg := .found (peer.kad.closest m.identity.nodeId k) (peer.kad.store.get m.identity.nodeId)
  have taken : DhtNode.receive C { node with sent := sent' } addr bytes = DhtNode.deliver { node with sent := sent' } addr rx reply :=
    DhtNode.receive_reply read rfl slot
  have told : DhtNode.Step C { node with sent := sent' } (.receive addr bytes)
      (DhtNode.deliver { node with sent := sent' } addr rx reply) := by
    rw [← taken]
    exact .receive _ addr bytes
  have moves : DhtNode.conduct C { node with sent := sent' } (.arrival addr bytes)
      (DhtNode.deliver { node with sent := sent' } addr rx reply) [] := ⟨trivial, told, (List.append_nil sent').symm⟩
  have arrives : Step C _ (.arrive ⟨addr, home, bytes⟩) _ := .arrive (List.mem_of_mem_drop back) now moves
  refine ⟨_, _, DhtNode.deliver { node with sent := sent' } addr rx reply, _,
    (Run.single ⟨asked, fun _ => sent⟩).snoc ⟨arrives, fun _ => back⟩, Table.get_insert_self .., here, by simp, ?_⟩
  have got : (DhtNode.deliver { node with sent := sent' } addr rx reply).channels.get rx = some (.got reply) :=
    Table.get_insert_self ..
  simp only [Task.cost, got, empty, List.length_append, List.length_singleton]
  omega

theorem Searching.nearer {sure : Prop} (searching : Searching m knows home i n sure s) (backed : Backed members m knows s)
    (verifies : ∀ key msg, C.verify (C.verifyingKey key) msg (C.sign key msg) = true)
    (able : Able members m home i n s) (listens : ∀ p ∈ members, ∃ node, s.nodes.get p.desc.dhtAddr = some node)
    {node : DhtNode} {task : Task}
    (present : s.nodes.get home = some node) (here : node.tasks.get i = some task) :
    task.Over ∨ Nearer members home i n s (task.cost members.length node) := by
  obtain ⟨_, _, present', here', seeks, -⟩ := searching.seeks
  cases present.symm.trans present'
  cases here.symm.trans here'
  have able := able node task present here
  have manned := backed.manned.nodes home node present
  have distinct (key : NodeId) : ((node.kad.closest key k).map (·.nodeId)).Nodup :=
    ((sortByDist_ascending key manned.arranged.ascending.nodup).take k).nodup
  -- Everything but a call and a wait is a step that the task makes by itself.
  have advances {t : DhtNode} (step : node.advance i task = some t) : Nearer members home i n s (task.cost members.length node) := by
    obtain ⟨next, now, -, less⟩ := able_advance distinct here seeks able step
    have quiet : Quiet node i (.advance i) := by
      intro addr resume timedOut
      cases here.symm.trans timedOut
      exact seeks.elim
    exact .own present (.advance here step) trivial quiet ((DhtNode.advance_sent step).trans (List.append_nil _).symm) now less
  cases task with
  | routeCache | routeStore | calls | expired => exact seeks.elim
  | start => exact .inr (advances rfl)
  | lookup caller l =>
    right
    cases next : l.batch with
    | nil =>
      have step : ∃ t, node.advance i (.lookup caller l) = some t := by
        simp only [DhtNode.advance, next]
        split <;> exact ⟨_, rfl⟩
      exact advances step.choose_spec
    | cons c batch =>
      have asks : Task.call? (.lookup caller l) =
          some (c.addr, .find l.key l.wantValue, .lookup caller { l with queried := l.queried ++ [c.nodeId], batch }) := by
        simp only [Task.call?, next]
      obtain ⟨data, sends, decoded⟩ := find_sent (C := C) m.identity.nodeId true c.addr
      rw [seeks.sameKey, seeks.wants] at asks
      have member := List.mem_append_right (s.sent.drop n) (List.mem_singleton_self (⟨home, c.addr, data⟩ : Datagram _ _))
      have less := (able_call manned here (able.imp (List.subset_append_left ..) fun rx empty => empty) seeks asks
        (node.openAt_empty c.addr) member decoded).2
      exact .own present (.call here asks) trivial rfl rfl (Table.get_insert_self ..) less
  | waiting addr rx resume =>
    cases resume with
    | calls => exact seeks.elim
    | lookup caller l =>
      right
      obtain ⟨-, ⟨p, listed, rfl⟩, asked⟩ := able
      -- Either nothing has come yet, or the answer is in the channel.
      rcases seeks.2.2 with ⟨empty, slot⟩ | ⟨msg, got, -⟩
      · obtain ⟨peer, there⟩ := listens p listed
        obtain ⟨data, sent, decoded⟩ := asked empty
        exact .answered searching backed verifies present here empty slot there sent decoded
      · have step : node.advance i (.waiting p.desc.dhtAddr rx (.lookup caller l)) =
            some (node.put i (Resume.reply (.lookup caller l) (some msg))) := by
          simp only [DhtNode.advance, got]
        exact advances step
  | merging contacts resume => exact .inr (advances rfl)
  | found caller key result =>
    cases caller with
    | direct => exact .inl trivial
    | route =>
      cases result with
      | none => exact .inr (advances rfl)
      | some d => exact .inr (advances rfl)
  | routed => exact .inl trivial

theorem Able.begin {seeker : DhtNode} (present : s.nodes.get home = some seeker) {caller : Caller}
    (begins : seeker.tasks.get i = some (.start caller m.identity.nodeId true)) : Able members m home i n s := by
  intro node task present' here
  cases present.symm.trans present'
  cases begins.symm.trans here
  trivial

theorem Able.run {sure : Prop} (verifies : ∀ key msg, C.verify (C.verifyingKey key) msg (C.sign key msg) = true)
    (few : members.length ≤ 64) (apart : (members.map fun m => m.desc.dhtAddr).Nodup)
    (ids : (members.map fun m => m.identity.nodeId).Nodup) (among : m ∈ members) {before between after : List SwarmEvent}
    (reach : Run (Step C) (start members) before s) (sofar : Run (Step C) s between t)
    (searching : Searching m (s.Knows m) home i n sure t) (able : Able members m home i n t)
    (run : Run (Such (Step C) (Calm home i n)) t after u) : Able members m home i n u := by
  induction run with
  | nil => exact able
  | snoc calm last ih =>
    exact ih.step (searching.run verifies few apart ids among reach sofar calm)
      (backed_run verifies few apart ids among reach (sofar.trans calm.forget)) ids among last

theorem Searching.ends {sure : Prop} (verifies : ∀ key msg, C.verify (C.verifyingKey key) msg (C.sign key msg) = true)
    (few : members.length ≤ 64) (apart : (members.map fun m => m.desc.dhtAddr).Nodup)
    (ids : (members.map fun m => m.identity.nodeId).Nodup) (among : m ∈ members) {before between : List SwarmEvent}
    (reach : Run (Step C) (start members) before s) (sofar : Run (Step C) s between t)
    (searching : Searching m (s.Knows m) home i n sure t) (able : Able members m home i n t) {node : DhtNode} {task : Task}
    (there : t.nodes.get home = some node) (here : node.tasks.get i = some task) {cost : Nat}
    (bounded : task.cost members.length node ≤ cost) :
    ∃ after u node' task', Run (Such (Step C) (Calm home i n)) t after u ∧ after.length ≤ cost ∧
      u.nodes.get home = some node' ∧ node'.tasks.get i = some task' ∧ task'.Over := by
  induction cost using Nat.strongRecOn generalizing t between node task with
  | ind cost ih =>
    have backed := backed_run verifies few apart ids among reach sofar
    have listens : ∀ p ∈ members, ∃ node, t.nodes.get p.desc.dhtAddr = some node := by
      intro p listed
      obtain ⟨node, present, -⟩ := stored_iff_received verifies members apart ids p listed (reach.trans sofar)
      exact ⟨node, present⟩
    rcases searching.nearer backed verifies able listens there here with
      ended | ⟨events, u, next, task', run, there', here', some, less⟩
    · exact ⟨[], t, node, task, .nil t, Nat.zero_le _, there, here, ended⟩
    · have searching' := searching.run verifies few apart ids among reach sofar run
      have able' := Able.run verifies few apart ids among reach sofar searching able run
      obtain ⟨after, v, node', last, later, length, rest⟩ :=
        ih (cost - events.length) (by omega) (sofar.trans run.forget) searching' able' there' here' (by omega)
      refine ⟨events ++ after, v, node', last, run.trans later, ?_, rest⟩
      rw [List.length_append]
      omega

def Names (m : Member C) : Task → Prop
  | .found _ _ result => result = some m.desc
  | .routed _ result => result = .ok m.desc
  | _ => False

theorem cost_le (bound : Nat) (node : DhtNode) (task : Task) : task.cost bound node ≤ 6 * bound + 6 := by
  cases task with
  | start => simp [Task.cost]
  | lookup caller l =>
    simp only [Task.cost]
    split <;> omega
  | waiting addr rx resume =>
    cases resume with
    | calls => exact Nat.zero_le _
    | lookup caller l =>
      simp only [Task.cost]
      split <;> omega
  | merging contacts resume =>
    cases resume with
    | calls => exact Nat.zero_le _
    | lookup caller l =>
      simp only [Task.cost]
      omega
  | found caller key result => cases caller <;> simp [Task.cost]
  | routeCache | routeStore | calls | expired | routed => exact Nat.zero_le _

/-- However far the lookup of a member has got in such a run, it can be brought to its end, with every call answered, in at most
six steps for each member and six more; and it ends with the member's descriptor if it had come upon the member. -/
theorem comes_to_end (verifies : ∀ key msg, C.verify (C.verifyingKey key) msg (C.sign key msg) = true) (members : List (Member C))
    (few : members.length ≤ 64) (apart : (members.map fun m => m.desc.dhtAddr).Nodup)
    (ids : (members.map fun m => m.identity.nodeId).Nodup) (m : Member C) (among : m ∈ members) {before during : List SwarmEvent}
    (reach : Run (Step C) (start members) before s) {seeker : DhtNode} (present : s.nodes.get home = some seeker) {caller : Caller}
    (begins : seeker.tasks.get i = some (.start caller m.identity.nodeId true))
    (run : Run (Such (Step C) (Calm home i s.sent.length)) s during t) {node : DhtNode} {task : Task}
    (there : t.nodes.get home = some node) (here : node.tasks.get i = some task) :
    ∃ after u node' task', Run (Such (Step C) (Calm home i s.sent.length)) t after u ∧ after.length ≤ 6 * members.length + 6 ∧
      u.nodes.get home = some node' ∧ node'.tasks.get i = some task' ∧ task'.Over ∧ (ComesUpon s m node task → Names m task') := by
  have begun := Searching.begin present begins
  have sofar := begun.run verifies few apart ids among reach (.nil s) run
  have able := Able.run verifies few apart ids among reach (.nil s) begun (.begin present begins) run
  obtain ⟨after, u, node', task', later, length, there', here', ended⟩ :=
    sofar.ends verifies few apart ids among reach run.forget able there here (cost_le members.length node task)
  refine ⟨after, u, node', task', later, length, there', here', ended, fun upon => ?_⟩
  obtain ⟨_, _, present', now, -, sure⟩ :=
    ((sofar.upon there here upon).run verifies few apart ids among reach run.forget later).seeks
  cases there'.symm.trans present'
  cases here'.symm.trans now
  have named := sure trivial
  cases task' with
  | found | routed => exact named
  | routeCache | routeStore | start | lookup | calls | waiting | expired | merging => exact ended.elim

end Swarm

namespace Transparent

open Nbf.Crypto.Transparent

theorem far_comes_to_end : ∃ (events : List SwarmEvent) (u : Swarm) (node : DhtNode) (task : Task),
    Run (Swarm.Step crates) (Swarm.start twoMembers) events u ∧ u.nodes.get nearMember.desc.dhtAddr = some node ∧
      node.tasks.get 0 = some task ∧ task.Over ∧ Swarm.Names farMember task := by
  obtain ⟨before, s, seeker, reach, present, begins, known⟩ := near_seeks
  obtain ⟨after, u, node, task, run, -, there, here, ended, names⟩ := Swarm.comes_to_end lawful.verify_sign twoMembers (by decide)
    twoMembers_apart twoMembers_ids farMember (by simp [twoMembers]) reach present begins (.nil s) present begins
  exact ⟨_, u, node, task, reach.trans run.forget, there, here, ended, names known⟩

end Transparent
end Nbf.Dht

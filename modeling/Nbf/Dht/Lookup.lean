import Nbf.Dht.Kademlia
import Nbf.Library.Run
import Nbf.Net.Cell

/-! Calls, lookups and the descriptor cache (`send_rpc`, `lookup`, `bootstrap` and
`store_self` in `kademlia.rs`, `lookup_route` in `node.rs`).

The tasks that call the DHT run interleaved with its receive loop. A step of a
task is what it does between two awaits, at most one lock held. A handler that
the receive loop spawns runs here as one step with the datagram that it is
spawned for; `Nbf.Dht.Handlers` takes it apart.
-/

set_option autoImplicit false

namespace Nbf.Dht

open Nbf.Library Nbf.Crypto Nbf.Net

/-- The locals of `lookup`; `batch` is what is left of the batch. -/
structure Lookup where
  key : NodeId
  wantValue : Bool
  closestSeen : List Contact
  queried : List NodeId
  batch : List Contact

inductive Caller where
  | direct
  | route
  deriving DecidableEq

inductive Resume where
  | lookup (caller : Caller) (l : Lookup)
  /-- `bootstrap` or `store_self`, after sending `msg`. -/
  | calls (msg : RpcMsg) (todo : List (SocketAddr × RpcMsg))

inductive Task where
  | routeCache (target : NodeId)
  | routeStore (target : NodeId)
  | start (caller : Caller) (key : NodeId) (wantValue : Bool)
  | lookup (caller : Caller) (l : Lookup)
  | calls (todo : List (SocketAddr × RpcMsg))
  | waiting (addr : SocketAddr) (rx : ReplyTx) (resume : Resume)
  /-- The time of a call is up, and its slot is still to be cleared. -/
  | expired (addr : SocketAddr) (resume : Resume)
  | merging (contacts : List Contact) (resume : Resume)
  /-- `lookup` has returned `Ok(result)`. -/
  | found (caller : Caller) (key : NodeId) (result : Option Descriptor)
  /-- `lookup_route` has returned. -/
  | routed (target : NodeId) (result : Except NetError Descriptor)

namespace Lookup

/-- The head of the loop: the next batch, or the end. -/
def enter (caller : Caller) (l : Lookup) : Task :=
  match (l.closestSeen.filter fun c => c.nodeId ∉ l.queried).take alpha with
  | [] => .found caller l.key none
  | batch => .lookup caller { l with batch }

def converged (l : Lookup) (next : List Contact) : Bool :=
  next.length = l.closestSeen.length ∧ ∀ c ∈ next, ∃ o ∈ l.closestSeen, o.nodeId = c.nodeId

end Lookup

namespace Resume

def task : Resume → Task
  | .lookup caller l => .lookup caller l
  | .calls _ todo => .calls todo

/-- The task after a reply, or after none came. -/
def reply (resume : Resume) (reply? : Option RpcMsg) : Task :=
  match resume, reply? with
  | .lookup caller l, some (.found contacts value) =>
    match l.wantValue, value with
    -- The value is returned as it comes: its id is not compared with the key.
    | true, some v => .found caller l.key (some v)
    | _, _ => .merging contacts resume
  | .calls (.find _ _) _, some (.found contacts _) => .merging contacts resume
  | _, _ => resume.task

end Resume

def bootstrapCalls (id : NodeId) (seeds : List (SocketAddr × UInt64)) : List (SocketAddr × RpcMsg) :=
  seeds.flatMap fun (seed, nonce) => [(seed, .ping nonce), (seed, .find id false)]

def storeSelfCalls (ownDesc : Descriptor) (seeds : List (SocketAddr × UInt64)) : List (SocketAddr × RpcMsg) :=
  seeds.map fun (seed, _) => (seed, .store ownDesc)

inductive Task.Initial (kad : Kademlia) : Task → Prop where
  | lookup (key : NodeId) (wantValue : Bool) : Initial kad (.start .direct key wantValue)
  | lookupRoute (target : NodeId) : Initial kad (.routeCache target)
  | bootstrap (seeds : List (SocketAddr × UInt64)) :
      Initial kad (.calls (bootstrapCalls kad.id seeds ++ storeSelfCalls kad.ownDesc seeds))

def Task.call? : Task → Option (SocketAddr × RpcMsg × Resume)
  | .lookup caller l =>
    match l.batch with
    | [] => none
    | c :: batch => some (c.addr, .find l.key l.wantValue, .lookup caller { l with queried := l.queried ++ [c.nodeId], batch })
  | .calls ((addr, msg) :: todo) => some (addr, msg, .calls msg todo)
  | _ => none

def RpcMsg.isReply : RpcMsg → Bool
  | .pong _ | .found _ _ => true
  | .ping _ | .store _ | .find _ _ => false

/-- A oneshot channel, seen from its receiver. -/
inductive Rx where
  | empty
  | got (msg : RpcMsg)
  | closed

structure DhtNode where
  kad : Kademlia
  dhtCache : Table NodeId Descriptor
  channels : Table ReplyTx Rx
  nextTx : ReplyTx
  tasks : Table Nat Task
  sent : List (SocketAddr × List UInt8)

inductive Event where
  /-- A datagram from `src`, as it was sent. -/
  | receive (src : SocketAddr) (data : List UInt8)
  | start (i : Nat) (task : Task)
  | advance (i : Nat)
  | call (i : Nat)
  /-- The socket refuses the datagram of a call. -/
  | fail (i : Nat)
  /-- A call runs out of time. -/
  | expire (i : Nat)

variable (C : Crates)

namespace DhtNode

def spawn {C : Crates} (identity : NodeIdentity C) (ownDesc : Descriptor) (known : List Contact) : DhtNode :=
  let kad := Kademlia.new identity.nodeId ownDesc
  { kad := { kad with rt := kad.rt ++ known, store := kad.store.insert identity.nodeId ownDesc }, dhtCache := .empty,
    channels := .empty, nextTx := 0, tasks := .empty, sent := [] }

def put (s : DhtNode) (i : Nat) (task : Task) : DhtNode := { s with tasks := s.tasks.insert i task }

def closeAt (s : DhtNode) (addr : SocketAddr) : DhtNode :=
  match s.kad.pending.get addr with
  | some tx => { s with channels := s.channels.insert tx .closed }
  | none => s

/-- The head of `send_rpc`: a new channel under the address, in the place of an older one. -/
def openAt (s : DhtNode) (addr : SocketAddr) : DhtNode :=
  let s := s.closeAt addr
  { s with kad := { s.kad with pending := s.kad.pending.insert addr s.nextTx },
           channels := s.channels.insert s.nextTx .empty, nextTx := s.nextTx + 1 }

/-- What a call that has run out of time does to its slot, whoever's sender is in there by then. -/
def removeAt (s : DhtNode) (addr : SocketAddr) : DhtNode :=
  { s.closeAt addr with kad := { s.kad with pending := s.kad.pending.remove addr } }

/-- One pass of the receive loop. -/
def receive (s : DhtNode) (src : SocketAddr) (data : List UInt8) : DhtNode :=
  let spawned (msg : RpcMsg) : DhtNode :=
    let (kad, out) := s.kad.handle src msg
    { s with kad, sent := s.sent ++ out }
  -- FOUND and PONG go to whoever waits under the sender's address, whatever was asked.
  let reply (msg : RpcMsg) : DhtNode :=
    match s.kad.pending.get src with
    | some tx => { s with kad := { s.kad with pending := s.kad.pending.remove src }, channels := s.channels.insert tx (.got msg) }
    | none => spawned msg
  match rpcDecode C (recvFrom data) with
  | .ok (.found contacts value) => reply (.found contacts value)
  | .ok (.pong nonce) => reply (.pong nonce)
  | .ok msg => spawned msg
  | _ => s

/-- The next step of a task that has no call to make; none if it waits or has ended. -/
def advance (s : DhtNode) (i : Nat) : Task → Option DhtNode
  | .routeCache target =>
    match s.dhtCache.get target with
    | some d => some (s.put i (.routed target (.ok d)))
    | none => some (s.put i (.routeStore target))
  | .routeStore target =>
    match s.kad.store.get target with
    | some d => some ({ s with dhtCache := s.dhtCache.insert target d }.put i (.routed target (.ok d)))
    | none => some (s.put i (.start .route target true))
  | .start caller key wantValue =>
    some (s.put i (Lookup.enter caller ⟨key, wantValue, s.kad.closest key k, [], []⟩))
  | .lookup caller l =>
    match l.batch with
    | _ :: _ => none
    | [] =>
      let next := s.kad.closest l.key k
      if l.converged next then some (s.put i (.found caller l.key none))
      else some (s.put i (Lookup.enter caller { l with closestSeen := next }))
  | .waiting _ rx resume =>
    match s.channels.get rx with
    | some (.got msg) => some (s.put i (resume.reply (some msg)))
    | some .closed => some (s.put i (resume.reply none))
    | _ => none
  | .expired addr resume => some ((s.removeAt addr).put i (resume.reply none))
  | .merging contacts resume => some ({ s with kad := s.kad.tryMerge contacts }.put i resume.task)
  | .found .route target (some d) =>
    some ({ s with dhtCache := s.dhtCache.insert target d }.put i (.routed target (.ok d)))
  | .found .route target none => some (s.put i (.routed target (.error .timeout)))
  | .found .direct _ _ => none
  | .routed _ _ => none
  | .calls _ => none

inductive Step : DhtNode → Event → DhtNode → Prop where
  | receive (s : DhtNode) (src : SocketAddr) (data : List UInt8) : Step s (.receive src data) (s.receive C src data)
  | start {s : DhtNode} {i : Nat} {task : Task} : s.tasks.get i = none → task.Initial s.kad →
      Step s (.start i task) (s.put i task)
  | advance {s t : DhtNode} {i : Nat} {task : Task} : s.tasks.get i = some task → s.advance i task = some t →
      Step s (.advance i) t
  | call {s : DhtNode} {i : Nat} {task : Task} {addr : SocketAddr} {msg : RpcMsg} {resume : Resume} :
      s.tasks.get i = some task → task.call? = some (addr, msg, resume) →
      Step s (.call i) ({ s.openAt addr with sent := s.sent ++ Kademlia.sendRaw addr msg }.put i (.waiting addr s.nextTx resume))
  | fail {s : DhtNode} {i : Nat} {task : Task} {addr : SocketAddr} {msg : RpcMsg} {resume : Resume} :
      s.tasks.get i = some task → task.call? = some (addr, msg, resume) →
      Step s (.fail i) ((s.openAt addr).put i (resume.reply none))
  | expire {s : DhtNode} {i : Nat} {addr : SocketAddr} {rx : ReplyTx} {resume : Resume} :
      s.tasks.get i = some (.waiting addr rx resume) → s.channels.get rx = some .empty →
      Step s (.expire i) (s.put i (.expired addr resume))

def deliver (s : DhtNode) (src : SocketAddr) (tx : ReplyTx) (msg : RpcMsg) : DhtNode :=
  { s with kad := { s.kad with pending := s.kad.pending.remove src }, channels := s.channels.insert tx (.got msg) }

/-- What `receive` does, case by case. -/
inductive Receive (C : Crates) (s : DhtNode) (src : SocketAddr) (data : List UInt8) : DhtNode → Prop where
  | dropped : (∀ msg, rpcDecode C (recvFrom data) ≠ .ok msg) → Receive C s src data s
  | reply {msg : RpcMsg} {tx : ReplyTx} : rpcDecode C (recvFrom data) = .ok msg → msg.isReply → s.kad.pending.get src = some tx →
      Receive C s src data (s.deliver src tx msg)
  /-- Nobody waits for it. -/
  | unasked {msg : RpcMsg} : rpcDecode C (recvFrom data) = .ok msg → msg.isReply → s.kad.pending.get src = none →
      Receive C s src data s
  | ping {nonce : UInt64} : rpcDecode C (recvFrom data) = .ok (.ping nonce) →
      Receive C s src data { s with sent := s.sent ++ Kademlia.sendRaw src (pingResponse nonce) }
  | store {desc : Descriptor} : rpcDecode C (recvFrom data) = .ok (.store desc) →
      Receive C s src data { s with kad := (s.kad.handle src (.store desc)).1 }
  | find {key : NodeId} {wantValue : Bool} : rpcDecode C (recvFrom data) = .ok (.find key wantValue) →
      Receive C s src data { s with sent := s.sent ++ (s.kad.handle src (.find key wantValue)).2 }

theorem receive_cases (s : DhtNode) (src : SocketAddr) (data : List UInt8) : Receive C s src data (s.receive C src data) := by
  unfold receive
  dsimp only
  cases decoded : rpcDecode C (recvFrom data) with
  | panic => exact .dropped (by simp [decoded])
  | error => exact .dropped (by simp [decoded])
  | ok msg =>
    cases msg with
    | found contacts value =>
      dsimp only
      split
      next tx slot => exact .reply decoded rfl slot
      next none =>
        rw [Kademlia.handle, List.append_nil]
        exact .unasked decoded rfl none
    | pong nonce =>
      dsimp only
      split
      next tx slot => exact .reply decoded rfl slot
      next none =>
        rw [Kademlia.handle, List.append_nil]
        exact .unasked decoded rfl none
    | ping nonce => exact .ping decoded
    | store desc =>
      dsimp only
      rw [Kademlia.handle, List.append_nil]
      exact .store decoded
    | find key wantValue => exact .find decoded

inductive Advance (s : DhtNode) : Task → DhtNode → Task → Prop where
  | cached {target : NodeId} {d : Descriptor} : s.dhtCache.get target = some d →
      Advance s (.routeCache target) s (.routed target (.ok d))
  | uncached {target : NodeId} : s.dhtCache.get target = none → Advance s (.routeCache target) s (.routeStore target)
  | stored {target : NodeId} {d : Descriptor} : s.kad.store.get target = some d →
      Advance s (.routeStore target) { s with dhtCache := s.dhtCache.insert target d } (.routed target (.ok d))
  | unstored {target : NodeId} : s.kad.store.get target = none →
      Advance s (.routeStore target) s (.start .route target true)
  | start {caller : Caller} {key : NodeId} {wantValue : Bool} :
      Advance s (.start caller key wantValue) s (Lookup.enter caller ⟨key, wantValue, s.kad.closest key k, [], []⟩)
  | converged {caller : Caller} {l : Lookup} : l.batch = [] → l.converged (s.kad.closest l.key k) = true →
      Advance s (.lookup caller l) s (.found caller l.key none)
  | round {caller : Caller} {l : Lookup} : l.batch = [] → ¬ l.converged (s.kad.closest l.key k) = true →
      Advance s (.lookup caller l) s (Lookup.enter caller { l with closestSeen := s.kad.closest l.key k })
  | got {addr : SocketAddr} {rx : ReplyTx} {resume : Resume} {msg : RpcMsg} : s.channels.get rx = some (.got msg) →
      Advance s (.waiting addr rx resume) s (resume.reply (some msg))
  | closed {addr : SocketAddr} {rx : ReplyTx} {resume : Resume} : s.channels.get rx = some .closed →
      Advance s (.waiting addr rx resume) s (resume.reply none)
  | expired {addr : SocketAddr} {resume : Resume} : Advance s (.expired addr resume) (s.removeAt addr) (resume.reply none)
  | merging {contacts : List Contact} {resume : Resume} :
      Advance s (.merging contacts resume) { s with kad := s.kad.tryMerge contacts } resume.task
  | found {target : NodeId} {d : Descriptor} :
      Advance s (.found .route target (some d)) { s with dhtCache := s.dhtCache.insert target d } (.routed target (.ok d))
  | notFound {target : NodeId} : Advance s (.found .route target none) s (.routed target (.error .timeout))

theorem advance_cases {s t : DhtNode} {i : Nat} {task : Task} (step : s.advance i task = some t) :
    ∃ u next, Advance s task u next ∧ t = u.put i next := by
  cases task with
  | routeCache target =>
    simp only [advance] at step
    split at step
    next d hit =>
      cases step
      exact ⟨s, _, .cached hit, rfl⟩
    next miss =>
      cases step
      exact ⟨s, _, .uncached miss, rfl⟩
  | routeStore target =>
    simp only [advance] at step
    split at step
    next d hit =>
      cases step
      exact ⟨_, _, .stored hit, rfl⟩
    next miss =>
      cases step
      exact ⟨s, _, .unstored miss, rfl⟩
  | start caller key wantValue =>
    cases step
    exact ⟨s, _, .start, rfl⟩
  | lookup caller l =>
    simp only [advance] at step
    split at step
    next => cases step
    next ended =>
      split at step
      next converged =>
        cases step
        exact ⟨s, _, .converged ended converged, rfl⟩
      next fresh =>
        cases step
        exact ⟨s, _, .round ended fresh, rfl⟩
  | waiting addr rx resume =>
    simp only [advance] at step
    split at step
    next msg got =>
      cases step
      exact ⟨s, _, .got got, rfl⟩
    next closed =>
      cases step
      exact ⟨s, _, .closed closed, rfl⟩
    next => cases step
  | expired addr resume =>
    cases step
    exact ⟨_, _, .expired, rfl⟩
  | merging contacts resume =>
    cases step
    exact ⟨_, _, .merging, rfl⟩
  | found caller target result =>
    cases caller with
    | direct => cases step
    | route =>
      cases result with
      | none =>
        cases step
        exact ⟨s, _, .notFound, rfl⟩
      | some d =>
        cases step
        exact ⟨_, _, .found, rfl⟩
  | routed target result => cases step
  | calls todo => cases step

end DhtNode
end Nbf.Dht

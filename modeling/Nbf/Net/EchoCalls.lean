import Nbf.Net.Tampering

/-! Echo calls on one circuit.

Every call registers its channel as stream 1 of the circuit's entry, in the place
of the one before. A reply names the stream and nothing else: it goes to the
channel that is registered when its handler reads the entry.
-/

set_option autoImplicit false

namespace Nbf.Net

open Nbf.Library Nbf.Crypto

variable {C : Crates}

inductive EchoStage where
  /-- The channel is registered, the request is still to be sent. -/
  | opened
  | waiting
  /-- The receiver is dropped with the call. -/
  | returned (result : Except NetError (List UInt8))

structure EchoCall where
  msg : List UInt8
  stage : EchoStage

def EchoCall.Returned (call : EchoCall) : Prop := ∃ result, call.stage = .returned result

/-- A node with its echo calls on one circuit; the channel of a call has the call's number. -/
structure Echoes (C : Crates) where
  node : Node C
  calls : Table Nat EchoCall
  channels : Table StreamTx (List (List UInt8))
  /-- Requests under way, or their replies: the call and its seq. -/
  flying : List (Nat × UInt32)
  /-- What the handlers of replies have read of the entry and opened, and still have to send. -/
  handling : List (StreamTx × List UInt8)
  /-- The calls whose reply has arrived. -/
  arrived : List Nat

inductive EchoEvent where
  | openStream (i : Nat) (msg : List UInt8)
  | send (i : Nat)
  /-- The reply to this call reaches the node. -/
  | reply (i : Nat) (src : SocketAddr)
  | put (tx : StreamTx) (data : List UInt8)
  | take (i : Nat)
  | expire (i : Nat)
  /-- The last sender of the channel is dropped, and `recv` gives `None`. -/
  | closed (i : Nat)
  | elsewhere

def streamCapacity : Nat := 16

def deliveriesOf (effects : List Effect) : List (StreamTx × List UInt8) :=
  effects.filterMap fun
    | .deliver tx data => some (tx, data)
    | _ => none

namespace Echoes

def channel (s : Echoes C) (tx : StreamTx) : List (List UInt8) := (s.channels.get tx).getD []

def registered (handle : CircuitHandle) (s : Echoes C) : Option StreamTx :=
  match s.node.circuits.get handle.cid with
  | some (.origin _ _ _ _ streams) => streams.get 1
  | _ => none

def put (s : Echoes C) (i : Nat) (call : EchoCall) : Echoes C := { s with calls := s.calls.insert i call }

variable (handle : CircuitHandle)

/-- The entry holds a sender of the channel, or the handler of a reply does. -/
def HasSender (s : Echoes C) (tx : StreamTx) : Prop :=
  s.registered handle = some tx ∨ ∃ data, (tx, data) ∈ s.handling

def replyCell (C : Crates) (seq : UInt32) (msg : List UInt8) : Cell :=
  ⟨handle.cid, .relay, 0, relayPayload ⟨seq, .echo, 1, replyOnion C handle.bwd handle.tag seq msg⟩⟩

inductive Step : Echoes C → EchoEvent → Echoes C → Prop where
  /-- Calls have different messages. -/
  | openStream {s : Echoes C} {i : Nat} {msg : List UInt8} : s.calls.get i = none → msg.length ≤ msgMax →
      (∀ j call, s.calls.get j = some call → call.msg ≠ msg) →
      Step s (.openStream i msg) ({ s with
        node := s.node.registerStream handle.cid 1 i
        channels := s.channels.insert i [] }.put i ⟨msg, .opened⟩)
  | tooLong {s : Echoes C} {i : Nat} {msg : List UInt8} : s.calls.get i = none → msgMax < msg.length →
      (∀ j call, s.calls.get j = some call → call.msg ≠ msg) →
      Step s (.openStream i msg) (s.put i ⟨msg, .returned (.error (.badLength msg.length))⟩)
  | send {s : Echoes C} {i : Nat} {msg : List UInt8} {node : Node C} {effects : List Effect} :
      s.calls.get i = some ⟨msg, .opened⟩ → s.node.send handle 1 .echo msg = (node, effects, .ok ()) →
      Step s (.send i) ({ s with node, flying := s.flying ++ [(i, s.node.seqOrigin)] }.put i ⟨msg, .waiting⟩)
  | noSession {s : Echoes C} {i : Nat} {msg : List UInt8} {node : Node C} {effects : List Effect} {err : NetError} :
      s.calls.get i = some ⟨msg, .opened⟩ → s.node.send handle 1 .echo msg = (node, effects, .error err) →
      Step s (.send i) ({ s with node }.put i ⟨msg, .returned (.error err)⟩)
  /-- Replies arrive in any order, each at most once. -/
  | reply {s : Echoes C} {i : Nat} {seq : UInt32} {call : EchoCall} {before after : List (Nat × UInt32)} (src : SocketAddr) :
      s.flying = before ++ (i, seq) :: after → s.calls.get i = some call →
      Step s (.reply i src) { s with
        node := (s.node.handleRelay src (replyCell handle C seq call.msg)).1
        flying := before ++ after
        handling := s.handling ++ deliveriesOf (s.node.handleRelay src (replyCell handle C seq call.msg)).2
        arrived := i :: s.arrived }
  | put {s : Echoes C} {tx : StreamTx} {data : List UInt8} {call : EchoCall} {before after : List (StreamTx × List UInt8)} :
      s.handling = before ++ (tx, data) :: after → s.calls.get tx = some call → ¬ call.Returned →
      (s.channel tx).length < streamCapacity →
      Step s (.put tx data) { s with handling := before ++ after, channels := s.channels.insert tx (s.channel tx ++ [data]) }
  /-- The receiver is gone, and `send` fails. -/
  | lose {s : Echoes C} {tx : StreamTx} {data : List UInt8} {call : EchoCall} {before after : List (StreamTx × List UInt8)} :
      s.handling = before ++ (tx, data) :: after → s.calls.get tx = some call → call.Returned →
      Step s (.put tx data) { s with handling := before ++ after }
  | take {s : Echoes C} {i : Nat} {msg data : List UInt8} {rest : List (List UInt8)} :
      s.calls.get i = some ⟨msg, .waiting⟩ → s.channel i = data :: rest →
      Step s (.take i) ({ s with channels := s.channels.insert i rest }.put i ⟨msg, .returned (.ok data)⟩)
  | expire {s : Echoes C} {i : Nat} {msg : List UInt8} : s.calls.get i = some ⟨msg, .waiting⟩ → s.channel i = [] →
      s.HasSender handle i → Step s (.expire i) (s.put i ⟨msg, .returned (.error .timeout)⟩)
  | closed {s : Echoes C} {i : Nat} {msg : List UInt8} : s.calls.get i = some ⟨msg, .waiting⟩ → s.channel i = [] →
      ¬ s.HasSender handle i → Step s (.closed i) (s.put i ⟨msg, .returned (.error .timeout)⟩)
  | elsewhere {s : Echoes C} {node : Node C} : node.circuits.get handle.cid = s.node.circuits.get handle.cid →
      Step s .elsewhere { s with node }

def start (node : Node C) : Echoes C :=
  { node, calls := .empty, channels := .empty, flying := [], handling := [], arrived := [] }

/-- A call gets the reply to its own request next, or nothing. -/
def GetsOwn (s : Echoes C) (i : Nat) (msg : List UInt8) : Prop :=
  (∃ rest, s.channel i = msg :: rest) ∨ (s.channel i = [] ∧ ∀ data, (i, data) ∈ s.handling → data = msg)

/-- What a call has got is the reply to its own request, and so is what it will get. While the call waits, its reply does
not go astray: one that has arrived is on its way to the call, and one that has still to arrive will find it registered. -/
structure Answered (s : Echoes C) : Prop where
  got : ∀ i msg data, s.calls.get i = some ⟨msg, .returned (.ok data)⟩ → data = msg
  gets : ∀ i call, s.calls.get i = some call → ¬ call.Returned → s.GetsOwn i call.msg
  kept : ∀ i call, s.calls.get i = some call → ¬ call.Returned → i ∈ s.arrived →
    call.msg ∈ s.channel i ∨ (i, call.msg) ∈ s.handling
  awaited : ∀ i call, s.calls.get i = some call → ¬ call.Returned → i ∉ s.arrived → s.registered handle = some i

/-- A stream is opened when no other call waits for a reply that has still to arrive. A reply that arrives is that of the
call registered last, or that one has returned or has its answer. -/
def Fits (s : Echoes C) (event : EchoEvent) (_ : Echoes C) : Prop :=
  match event with
  | .openStream _ msg => msg.length ≤ msgMax → ∀ j call, s.calls.get j = some call → call.Returned ∨ j ∈ s.arrived
  | .reply i _ => ∀ r, s.registered handle = some r →
    r = i ∨ (∀ call, s.calls.get r = some call → call.Returned) ∨ s.channel r ≠ []
  | _ => True

/-! ## What holds between calls, channels and replies -/

structure Onward (calls calls' : Table Nat EchoCall) : Prop where
  back : ∀ j call', calls'.get j = some call' → ∃ call, calls.get j = some call ∧ call.msg = call'.msg
  forth : ∀ j call, calls.get j = some call →
    ∃ call', calls'.get j = some call' ∧ call'.msg = call.msg ∧ (call.stage ≠ .opened → call'.stage ≠ .opened)

theorem Onward.refl (calls : Table Nat EchoCall) : Onward calls calls :=
  ⟨fun _ call here => ⟨call, here, rfl⟩, fun _ call here => ⟨call, here, rfl, id⟩⟩

theorem Onward.put {calls : Table Nat EchoCall} {i : Nat} {msg : List UInt8} {stage stage' : EchoStage}
    (here : calls.get i = some ⟨msg, stage⟩) (sent : stage' ≠ .opened) : Onward calls (calls.insert i ⟨msg, stage'⟩) where
  back j call' there := by
    rcases Table.get_insert_some there with ⟨rfl, rfl⟩ | ⟨-, before⟩
    · exact ⟨_, here, rfl⟩
    · exact ⟨call', before, rfl⟩
  forth j call there := by
    by_cases same : j = i
    · subst same
      rw [here] at there
      cases there
      exact ⟨_, Table.get_insert_self .., rfl, fun _ => sent⟩
    · exact ⟨call, (Table.get_insert_of_ne _ _ same).trans there, rfl, id⟩

structure Consistent (s : Echoes C) : Prop where
  entry : ∃ next streams, s.node.circuits.get handle.cid = some (.origin handle.fwd handle.bwd handle.tag next streams)
  registered : ∀ r, s.registered handle = some r → ∃ call, s.calls.get r = some call
  held : ∀ tx data, (tx, data) ∈ s.handling → ∃ call, s.calls.get tx = some call
  distinct : ∀ i j call call', s.calls.get i = some call → s.calls.get j = some call' → call.msg = call'.msg → i = j
  flown : ∀ i ∈ s.flying.map Prod.fst, i ∉ s.arrived ∧ ∃ call, s.calls.get i = some call ∧ call.stage ≠ .opened
  once : (s.flying.map Prod.fst).Nodup
  seen : ∀ i ∈ s.arrived, ∃ call, s.calls.get i = some call ∧ call.stage ≠ .opened
  /-- Messages in a channel or on their way to one are those of replies that have arrived. -/
  source : ∀ tx data, (tx, data) ∈ s.handling ∨ data ∈ s.channel tx →
    ∃ j ∈ s.arrived, ∃ call, s.calls.get j = some call ∧ call.msg = data

variable {handle} {s t : Echoes C}

theorem channel_insert {i : StreamTx} {queue : List (List UInt8)} (put : t.channels = s.channels.insert i queue) (j : StreamTx) :
    t.channel j = if j = i then queue else s.channel j := by
  unfold channel
  rw [put, Table.get_insert]
  split <;> rfl

theorem mem_channel_insert {i j : StreamTx} {queue : List (List UInt8)} {data : List UInt8} (member : data ∈ t.channel j)
    (put : t.channels = s.channels.insert i queue) : (j = i ∧ data ∈ queue) ∨ data ∈ s.channel j := by
  rw [channel_insert put] at member
  split at member
  next same => exact .inl ⟨same, member⟩
  next => exact .inr member

theorem Consistent.onward (consistent : s.Consistent handle)
    (entry : t.node.circuits.get handle.cid = s.node.circuits.get handle.cid) (calls : Onward s.calls t.calls)
    (handling : ∀ held ∈ t.handling, held ∈ s.handling) (flying : t.flying = s.flying) (arrived : t.arrived = s.arrived)
    (channels : ∀ tx, ∀ data ∈ t.channel tx, (tx, data) ∈ s.handling ∨ data ∈ s.channel tx) : t.Consistent handle := by
  have same : t.registered handle = s.registered handle := by simp only [Echoes.registered, entry]
  have sent {i : Nat} (before : ∃ call, s.calls.get i = some call ∧ call.stage ≠ .opened) :
      ∃ call, t.calls.get i = some call ∧ call.stage ≠ .opened := by
    obtain ⟨call, here, stage⟩ := before
    obtain ⟨call', there, -, more⟩ := calls.forth i call here
    exact ⟨call', there, more stage⟩
  refine ⟨entry ▸ consistent.entry, fun r here => ?_, fun tx data member => ?_, fun i j call call' here there equal => ?_,
    fun i member => ?_, flying ▸ consistent.once, fun i member => ?_, fun tx data either => ?_⟩
  · obtain ⟨call, before⟩ := consistent.registered r (same ▸ here)
    obtain ⟨call', after, -⟩ := calls.forth r call before
    exact ⟨call', after⟩
  · obtain ⟨call, before⟩ := consistent.held tx data (handling _ member)
    obtain ⟨call', after, -⟩ := calls.forth tx call before
    exact ⟨call', after⟩
  · obtain ⟨old, before, msg⟩ := calls.back i call here
    obtain ⟨old', before', msg'⟩ := calls.back j call' there
    exact consistent.distinct i j old old' before before' (msg.trans (equal.trans msg'.symm))
  · rw [flying] at member
    obtain ⟨unseen, stage⟩ := consistent.flown i member
    exact ⟨arrived ▸ unseen, sent stage⟩
  · exact sent (consistent.seen i (arrived ▸ member))
  · have before : (tx, data) ∈ s.handling ∨ data ∈ s.channel tx :=
      either.elim (fun held => .inl (handling _ held)) (channels tx data)
    obtain ⟨j, seen, call, here, msg⟩ := consistent.source tx data before
    obtain ⟨call', there, msg', -⟩ := calls.forth j call here
    exact ⟨j, arrived ▸ seen, call', there, msg'.trans msg⟩

theorem Consistent.deliveries (laws : C.Lawful) (consistent : s.Consistent handle) (src : SocketAddr) (seq : UInt32)
    (msg : List UInt8) :
    (s.node.handleRelay src (replyCell handle C seq msg)).1.circuits.get handle.cid = s.node.circuits.get handle.cid ∧
      deliveriesOf (s.node.handleRelay src (replyCell handle C seq msg)).2 = (s.registered handle).toList.map (·, msg) := by
  obtain ⟨next, streams, entry⟩ := consistent.entry
  refine ⟨?_, ?_⟩
  · rw [entry]
    rcases Node.get_handleRelay src (replyCell handle C seq msg) entry with same | ⟨_, same⟩ <;> exact same
  · simp only [Node.handleRelay, replyCell, parseRelay_relayPayload, entry, relayDecide, openBwdAll_replyOnion laws,
      Echoes.registered]
    cases streams.get 1 <;> rfl

theorem Consistent.handed (laws : C.Lawful) (consistent : s.Consistent handle) {src : SocketAddr} {seq : UInt32}
    {msg data : List UInt8} {tx : StreamTx}
    (member : (tx, data) ∈ deliveriesOf (s.node.handleRelay src (replyCell handle C seq msg)).2) :
    s.registered handle = some tx ∧ data = msg := by
  rw [(consistent.deliveries laws src seq msg).2] at member
  obtain ⟨r, there, pair⟩ := List.mem_map.mp member
  cases pair
  exact ⟨Option.mem_toList.mp there, rfl⟩

theorem send_circuits {node node' : Node C} {stream : UInt16} {rcmd : RCmd} {msg : List UInt8} {effects : List Effect}
    {result : Except NetError Unit} (sent : node.send handle stream rcmd msg = (node', effects, result)) :
    node'.circuits = node.circuits := by
  unfold Node.send at sent
  dsimp only at sent
  split at sent <;> cases sent <;> rfl

theorem Consistent.call (consistent : s.Consistent handle) {i : Nat} {msg : List UInt8} (free : s.calls.get i = none)
    (other : ∀ j call, s.calls.get j = some call → call.msg ≠ msg) (stage : EchoStage) :
    Consistent handle (s.put i ⟨msg, stage⟩) := by
  have kept {j : Nat} {call : EchoCall} (here : s.calls.get j = some call) :
      (s.calls.insert i ⟨msg, stage⟩).get j = some call := by
    have apart : j ≠ i := by
      rintro rfl
      cases free.symm.trans here
    exact (Table.get_insert_of_ne _ _ apart).trans here
  refine ⟨consistent.entry, fun r here => ?_, fun tx data member => ?_, fun j k call call' here there equal => ?_,
    fun j member => ?_, consistent.once, fun j member => ?_, fun tx data either => ?_⟩
  · obtain ⟨call, before⟩ := consistent.registered r here
    exact ⟨call, kept before⟩
  · obtain ⟨call, here⟩ := consistent.held tx data member
    exact ⟨call, kept here⟩
  · rcases Table.get_insert_some here with ⟨rfl, rfl⟩ | ⟨-, before⟩
    · rcases Table.get_insert_some there with ⟨rfl, -⟩ | ⟨-, before'⟩
      · rfl
      · exact absurd equal.symm (other k call' before')
    · rcases Table.get_insert_some there with ⟨rfl, rfl⟩ | ⟨-, before'⟩
      · exact absurd equal (other j call before)
      · exact consistent.distinct j k call call' before before' equal
  · obtain ⟨unseen, call, here, sent⟩ := consistent.flown j member
    exact ⟨unseen, call, kept here, sent⟩
  · obtain ⟨call, here, sent⟩ := consistent.seen j member
    exact ⟨call, kept here, sent⟩
  · obtain ⟨j, seen, call, here, same⟩ := consistent.source tx data either
    exact ⟨j, seen, call, kept here, same⟩

theorem Consistent.get_registerStream (consistent : s.Consistent handle) (i : Nat) :
    ∃ (next : HopLink) (streams : Table UInt16 StreamTx),
    (s.node.registerStream handle.cid 1 i).circuits.get handle.cid =
      some (.origin handle.fwd handle.bwd handle.tag next (streams.insert 1 i)) := by
  obtain ⟨next, streams, entry⟩ := consistent.entry
  refine ⟨next, streams, ?_⟩
  simp only [Node.registerStream, entry, Table.get_insert_self]

theorem Consistent.registered_openStream (consistent : s.Consistent handle) (i : Nat) (call : EchoCall) : Echoes.registered handle
    ({ s with node := s.node.registerStream handle.cid 1 i, channels := s.channels.insert i [] }.put i call) = some i := by
  obtain ⟨next, streams, renewed⟩ := consistent.get_registerStream i
  simp only [Echoes.registered, Echoes.put, renewed, Table.get_insert_self]

theorem Consistent.openStream (consistent : s.Consistent handle) {i : Nat} {msg : List UInt8} (free : s.calls.get i = none)
    (other : ∀ j call, s.calls.get j = some call → call.msg ≠ msg) : Consistent handle
    ({ s with node := s.node.registerStream handle.cid 1 i, channels := s.channels.insert i [] }.put i ⟨msg, .opened⟩) := by
  obtain ⟨next, streams, renewed⟩ := consistent.get_registerStream i
  have called := consistent.call free other .opened
  refine ⟨⟨next, _, renewed⟩, fun r here => ?_, called.held, called.distinct, called.flown, called.once, called.seen,
    fun tx data either => called.source tx data (either.imp_right fun member => ?_)⟩
  · obtain rfl : i = r := Option.some.inj ((consistent.registered_openStream i _).symm.trans here)
    exact ⟨_, Table.get_insert_self ..⟩
  · exact (mem_channel_insert member rfl).resolve_left fun new => List.not_mem_nil new.2

theorem Consistent.send (consistent : s.Consistent handle) {i : Nat} {msg : List UInt8} (here : s.calls.get i = some ⟨msg, .opened⟩)
    {node : Node C} (same : node.circuits = s.node.circuits) (seq : UInt32) :
    Consistent handle ({ s with node, flying := s.flying ++ [(i, seq)] }.put i ⟨msg, .waiting⟩) := by
  have unsent (sent : ∃ call, s.calls.get i = some call ∧ call.stage ≠ .opened) : False := by
    obtain ⟨call, there, stage⟩ := sent
    cases here.symm.trans there
    exact stage rfl
  have calls : Onward s.calls (s.calls.insert i ⟨msg, .waiting⟩) := .put here (by simp)
  have waits : Consistent handle ({ s with node }.put i ⟨msg, .waiting⟩) :=
    consistent.onward (congrArg (Table.get · handle.cid) same) calls (fun _ member => member) rfl rfl fun _ _ member => .inr member
  have added : (s.flying ++ [(i, seq)]).map Prod.fst = s.flying.map Prod.fst ++ [i] := List.map_append
  refine ⟨waits.entry, waits.registered, waits.held, waits.distinct, fun j member => ?_, ?_, waits.seen, waits.source⟩
  · change j ∈ (s.flying ++ [(i, seq)]).map Prod.fst at member
    rw [added] at member
    rcases List.mem_append.mp member with old | new
    · exact waits.flown j old
    · obtain rfl := List.mem_singleton.mp new
      exact ⟨fun seen => unsent (consistent.seen j seen), _, Table.get_insert_self .., by simp⟩
  · change ((s.flying ++ [(i, seq)]).map Prod.fst).Nodup
    rw [added]
    refine List.nodup_append.mpr ⟨consistent.once, List.nodup_singleton i, fun j old k new => ?_⟩
    rw [List.mem_singleton.mp new]
    rintro rfl
    exact unsent (consistent.flown j old).2

theorem Consistent.reply (laws : C.Lawful) (consistent : s.Consistent handle) {i : Nat} {seq : UInt32} {call : EchoCall}
    {before after : List (Nat × UInt32)} (flying : s.flying = before ++ (i, seq) :: after) (here : s.calls.get i = some call)
    (src : SocketAddr) :
    Consistent handle { s with
      node := (s.node.handleRelay src (replyCell handle C seq call.msg)).1
      flying := before ++ after
      handling := s.handling ++ deliveriesOf (s.node.handleRelay src (replyCell handle C seq call.msg)).2
      arrived := i :: s.arrived } := by
  have kept := (consistent.deliveries laws src seq call.msg).1
  have same : Echoes.registered handle { s with node := (s.node.handleRelay src (replyCell handle C seq call.msg)).1 } =
      s.registered handle := by simp only [Echoes.registered, kept]
  have once := consistent.once
  rw [flying, List.map_append, List.map_cons] at once
  have apart : i ∉ (before ++ after).map Prod.fst := by
    rw [List.map_append]
    exact (List.nodup_middle.mp once).notMem
  have sub {j : Nat} (member : j ∈ (before ++ after).map Prod.fst) : j ∈ s.flying.map Prod.fst := by
    rw [flying, List.map_append, List.map_cons]
    rw [List.map_append] at member
    exact (List.perm_middle.mem_iff).mpr (List.mem_cons_of_mem _ member)
  have sent := (consistent.flown i (by rw [flying]; simp)).2
  refine ⟨kept ▸ consistent.entry, fun r there => ?_, fun tx data member => ?_, consistent.distinct, fun j member => ?_, ?_,
    fun j member => ?_, fun tx data either => ?_⟩
  · exact consistent.registered r (same.symm.trans there)
  · rcases List.mem_append.mp member with old | new
    · exact consistent.held tx data old
    · exact consistent.registered tx (consistent.handed laws new).1
  · obtain ⟨unseen, stage⟩ := consistent.flown j (sub member)
    refine ⟨fun seen => ?_, stage⟩
    rcases List.mem_cons.mp seen with rfl | old
    · exact apart member
    · exact unseen old
  · change ((before ++ after).map Prod.fst).Nodup
    rw [List.map_append]
    exact (List.nodup_cons.mp (List.nodup_middle.mp once)).2
  · rcases List.mem_cons.mp member with rfl | old
    · exact sent
    · exact consistent.seen j old
  · rcases either with held | queued
    · rcases List.mem_append.mp held with old | new
      · obtain ⟨j, seen, found⟩ := consistent.source tx data (.inl old)
        exact ⟨j, List.mem_cons_of_mem _ seen, found⟩
      · exact ⟨i, List.mem_cons_self, call, here, (consistent.handed laws new).2.symm⟩
    · obtain ⟨j, seen, found⟩ := consistent.source tx data (.inr queued)
      exact ⟨j, List.mem_cons_of_mem _ seen, found⟩

theorem Consistent.step (laws : C.Lawful) {event : EchoEvent} (consistent : s.Consistent handle) (step : Step handle s event t) :
    t.Consistent handle := by
  cases step with
  | openStream free _ other => exact consistent.openStream free other
  | tooLong free _ other => exact consistent.call free other _
  | send here sent => exact consistent.send here (send_circuits sent) _
  | noSession here sent =>
    exact consistent.onward (congrArg (Table.get · handle.cid) (send_circuits sent)) (.put here (by simp)) (fun _ member => member)
      rfl rfl fun _ _ member => .inr member
  | reply src flying here => exact consistent.reply laws flying here src
  | @put tx data call before after held here live room =>
    refine consistent.onward rfl (.refl _) (fun pair member => ?_) rfl rfl fun tx' data' member => ?_
    · rw [held]
      exact List.perm_middle.mem_iff.mpr (List.mem_cons_of_mem _ member)
    · rcases mem_channel_insert member rfl with ⟨rfl, queued⟩ | old
      · rcases List.mem_append.mp queued with old | new
        · exact .inr old
        · rw [List.mem_singleton.mp new, held]
          exact .inl (by simp)
      · exact .inr old
  | lose held _ _ =>
    refine consistent.onward rfl (.refl _) (fun pair member => ?_) rfl rfl fun _ _ member => .inr member
    rw [held]
    exact List.perm_middle.mem_iff.mpr (List.mem_cons_of_mem _ member)
  | @take i msg data rest here queue =>
    refine consistent.onward rfl (.put here (by simp)) (fun _ member => member) rfl rfl fun tx data' member => .inr ?_
    rcases mem_channel_insert member rfl with ⟨rfl, left⟩ | old
    · rw [queue]
      exact List.mem_cons_of_mem _ left
    · exact old
  | expire here _ _ | closed here _ _ =>
    exact consistent.onward rfl (.put here (by simp)) (fun _ member => member) rfl rfl fun _ _ member => .inr member
  | elsewhere same => exact consistent.onward same (.refl _) (fun _ member => member) rfl rfl fun _ _ member => .inr member

/-! ## Answers, step by step -/

theorem Answered.settle (answered : s.Answered handle)
    (got : ∀ i msg data, t.calls.get i = some ⟨msg, .returned (.ok data)⟩ → data = msg)
    (live : ∀ i call', t.calls.get i = some call' → ¬ call'.Returned → ∃ call, s.calls.get i = some call ∧ ¬ call.Returned ∧
      call.msg = call'.msg ∧ t.channel i = s.channel i ∧ ∀ data, (i, data) ∈ t.handling ↔ (i, data) ∈ s.handling)
    (registered : t.registered handle = s.registered handle) (arrived : t.arrived = s.arrived) : t.Answered handle := by
  refine ⟨got, fun i call' there waits => ?_, fun i call' there waits seen => ?_, fun i call' there waits unseen => ?_⟩
  all_goals
    obtain ⟨call, here, waits', msg, channel, handling⟩ := live i call' there waits
  · unfold GetsOwn
    simp only [channel, handling, ← msg]
    exact answered.gets i call here waits'
  · rw [channel, handling, ← msg]
    exact answered.kept i call here waits' (arrived ▸ seen)
  · rw [registered]
    exact answered.awaited i call here waits' (arrived ▸ unseen)

theorem Answered.progress (answered : s.Answered handle) {i : Nat} {msg : List UInt8} {stage stage' : EchoStage}
    (here : s.calls.get i = some ⟨msg, stage⟩) (live : ¬ EchoCall.Returned ⟨msg, stage⟩)
    (own : ∀ data, stage' = .returned (.ok data) → data = msg) (calls : t.calls = s.calls.insert i ⟨msg, stage'⟩)
    (channels : ∀ j, j ≠ i ∨ ¬ EchoCall.Returned ⟨msg, stage'⟩ → t.channel j = s.channel j) (handling : t.handling = s.handling)
    (registered : t.registered handle = s.registered handle) (arrived : t.arrived = s.arrived) : t.Answered handle := by
  refine answered.settle (fun j msg' data there => ?_) (fun j call' there waits => ?_) registered arrived
  all_goals
    rw [calls] at there
    rcases Table.get_insert_some there with ⟨rfl, same⟩ | ⟨apart, before⟩
  · cases same
    exact own data rfl
  · exact answered.got j msg' data before
  · subst same
    exact ⟨_, here, live, rfl, channels j (.inr waits), fun data => by rw [handling]⟩
  · exact ⟨call', before, waits, rfl, channels j (.inl apart), fun data => by rw [handling]⟩

theorem not_returned_opened (msg : List UInt8) : ¬ EchoCall.Returned ⟨msg, .opened⟩ := fun ⟨_, same⟩ => nomatch same

theorem not_returned_waiting (msg : List UInt8) : ¬ EchoCall.Returned ⟨msg, .waiting⟩ := fun ⟨_, same⟩ => nomatch same

theorem Answered.head (answered : s.Answered handle) {i : Nat} {msg data : List UInt8} {rest : List (List UInt8)}
    (here : s.calls.get i = some ⟨msg, .waiting⟩) (queue : s.channel i = data :: rest) : data = msg := by
  rcases answered.gets i _ here (not_returned_waiting msg) with ⟨_, own⟩ | ⟨none, -⟩
  · exact (List.cons.inj (queue.symm.trans own)).1
  · cases queue.symm.trans none

theorem Answered.put (answered : s.Answered handle) {tx : StreamTx} {data : List UInt8}
    {before after : List (StreamTx × List UInt8)} (held : s.handling = before ++ (tx, data) :: after) : Answered handle
    { s with handling := before ++ after, channels := s.channels.insert tx (s.channel tx ++ [data]) } := by
  have queue (i : StreamTx) : Echoes.channel
      { s with handling := before ++ after, channels := s.channels.insert tx (s.channel tx ++ [data]) } i =
      if i = tx then s.channel tx ++ [data] else s.channel i := channel_insert rfl i
  have fewer {pair : StreamTx × List UInt8} (member : pair ∈ before ++ after) : pair ∈ s.handling := by
    rw [held]
    exact List.perm_middle.mem_iff.mpr (List.mem_cons_of_mem _ member)
  have now : (tx, data) ∈ s.handling := by simp [held]
  refine ⟨answered.got, fun i call here waits => ?_, fun i call here waits seen => ?_, answered.awaited⟩
  · unfold GetsOwn
    rw [queue]
    rcases answered.gets i call here waits with ⟨rest, own⟩ | ⟨none, own⟩
    · left
      split
      next same => exact ⟨rest ++ [data], by rw [← same, own, List.cons_append]⟩
      next => exact ⟨rest, own⟩
    · split
      next same =>
        subst same
        exact .inl ⟨[], by rw [none, own data now, List.nil_append]⟩
      next => exact .inr ⟨none, fun data' member => own data' (fewer member)⟩
  · rw [queue]
    rcases answered.kept i call here waits seen with queued | coming
    · left
      split
      next same => exact List.mem_append_left _ (same ▸ queued)
      next => exact queued
    · rw [held] at coming
      rcases List.mem_cons.mp (List.perm_middle.mem_iff.mp coming) with same | other
      · cases same
        exact .inl (by simp)
      · exact .inr other

theorem Answered.lose (answered : s.Answered handle) {tx : StreamTx} {data : List UInt8} {call : EchoCall}
    {before after : List (StreamTx × List UInt8)} (held : s.handling = before ++ (tx, data) :: after)
    (there : s.calls.get tx = some call) (returned : call.Returned) : Answered handle { s with handling := before ++ after } := by
  refine answered.settle answered.got (fun i call' here waits => ⟨call', here, waits, rfl, rfl, fun data' => ?_⟩) rfl rfl
  have apart : (i, data') ≠ (tx, data) := by
    intro same
    cases same
    cases there.symm.trans here
    exact waits returned
  rw [held, List.perm_middle.mem_iff, List.mem_cons]
  exact ⟨.inr, fun either => either.resolve_left apart⟩

/-! ## Registration and replies -/

/-- The calls before a new one keep their answers exactly if none of them has still to wait for its own. -/
theorem openStream_answered_iff (consistent : s.Consistent handle) (answered : s.Answered handle) {i : Nat}
    (free : s.calls.get i = none) (msg : List UInt8) :
    (∀ j call, s.calls.get j = some call → call.Returned ∨ j ∈ s.arrived) ↔ Answered handle
      ({ s with node := s.node.registerStream handle.cid 1 i, channels := s.channels.insert i [] }.put i ⟨msg, .opened⟩) := by
  have now := consistent.registered_openStream i ⟨msg, .opened⟩
  have apart {j : Nat} {call : EchoCall} (here : s.calls.get j = some call) : j ≠ i := by
    rintro rfl
    cases free.symm.trans here
  have queue (j : StreamTx) : Echoes.channel
      ({ s with node := s.node.registerStream handle.cid 1 i, channels := s.channels.insert i [] }.put i ⟨msg, .opened⟩) j =
      if j = i then [] else s.channel j := channel_insert rfl j
  constructor
  · intro settled
    refine ⟨fun j msg' data there => ?_, fun j call there waits => ?_, fun j call there waits seen => ?_,
      fun j call there waits unseen => ?_⟩
    all_goals rcases Table.get_insert_some there with ⟨rfl, same⟩ | ⟨other, before⟩
    · cases same
    · exact answered.got j msg' data before
    · subst same
      refine .inr ⟨(queue j).trans (if_pos rfl), fun data member => ?_⟩
      obtain ⟨call, here⟩ := consistent.held j data member
      exact absurd rfl (apart here)
    · unfold GetsOwn
      rw [queue, if_neg other]
      exact answered.gets j call before waits
    · obtain ⟨call, here, -⟩ := consistent.seen j seen
      exact absurd rfl (apart here)
    · rw [queue, if_neg other]
      exact answered.kept j call before waits seen
    · exact now
    · exact absurd ((settled j call before).resolve_left waits) unseen
  · intro after j call here
    by_cases waits : call.Returned
    · exact .inl waits
    · by_contra neither
      have unseen : j ∉ s.arrived := fun seen => neither (.inr seen)
      have there := (Table.get_insert_of_ne s.calls (⟨msg, .opened⟩ : EchoCall) (apart here)).trans here
      exact apart here (Option.some.inj ((after.awaited j call there waits unseen).symm.trans now))

/-- A reply is handed to the call that has registered last. The calls keep their answers exactly if that call is the one
that the reply is for, or has returned, or has a message before this one. -/
theorem reply_answered_iff (laws : C.Lawful) (consistent : s.Consistent handle) (answered : s.Answered handle) {i : Nat}
    {seq : UInt32} {call : EchoCall} {before after : List (Nat × UInt32)} (src : SocketAddr)
    (flying : s.flying = before ++ (i, seq) :: after) (here : s.calls.get i = some call) :
    (∀ r, s.registered handle = some r → r = i ∨ (∀ call, s.calls.get r = some call → call.Returned) ∨ s.channel r ≠ []) ↔
      Answered handle { s with
        node := (s.node.handleRelay src (replyCell handle C seq call.msg)).1
        flying := before ++ after
        handling := s.handling ++ deliveriesOf (s.node.handleRelay src (replyCell handle C seq call.msg)).2
        arrived := i :: s.arrived } := by
  obtain ⟨kept, deliveries⟩ := consistent.deliveries laws src seq call.msg
  have unseen : i ∉ s.arrived := (consistent.flown i (by rw [flying]; simp)).1
  constructor
  · intro fits
    refine ⟨answered.got, fun j call' there waits => ?_, fun j call' there waits seen => ?_, fun j call' there waits fresh => ?_⟩
    · rcases answered.gets j call' there waits with ⟨rest, own⟩ | ⟨none, own⟩
      · exact .inl ⟨rest, own⟩
      · refine .inr ⟨none, fun data member => ?_⟩
        rcases List.mem_append.mp member with old | new
        · exact own data old
        · obtain ⟨registered, rfl⟩ := consistent.handed laws new
          rcases fits j registered with rfl | returned | some
          · cases here.symm.trans there
            rfl
          · exact absurd (returned call' there) waits
          · exact absurd none some
    · rcases List.mem_cons.mp seen with rfl | old
      · cases here.symm.trans there
        -- The reply finds its own call registered.
        refine .inr (List.mem_append_right _ ?_)
        rw [deliveries, answered.awaited j _ here waits unseen]
        exact List.mem_singleton_self _
      · exact (answered.kept j call' there waits old).imp_right (List.mem_append_left _)
    · have same : Echoes.registered handle { s with node := (s.node.handleRelay src (replyCell handle C seq call.msg)).1 } =
          s.registered handle := by simp only [Echoes.registered, kept]
      exact same.trans (answered.awaited j call' there waits fun old => fresh (List.mem_cons_of_mem _ old))
  · intro next r registered
    by_contra neither
    obtain ⟨other, neither⟩ := not_or.mp neither
    obtain ⟨live, none⟩ := not_or.mp neither
    obtain ⟨call', there⟩ := consistent.registered r registered
    have waits : ¬ call'.Returned := fun returned => live fun call'' again => by
      cases there.symm.trans again
      exact returned
    have got : (r, call.msg) ∈ s.handling ++ deliveriesOf (s.node.handleRelay src (replyCell handle C seq call.msg)).2 :=
      List.mem_append_right _ (by simp [deliveries, registered])
    have empty : s.channel r = [] := by simpa using none
    rcases next.gets r call' there waits with ⟨rest, own⟩ | ⟨-, own⟩
    · cases empty.symm.trans own
    · exact other (consistent.distinct r i call' call there here (own call.msg got).symm)

theorem answered_step_iff (laws : C.Lawful) (consistent : s.Consistent handle) (answered : s.Answered handle) {event : EchoEvent}
    (step : Step handle s event t) : Fits handle s event t ↔ t.Answered handle := by
  cases step with
  | @openStream i msg free short other =>
    have settled := openStream_answered_iff consistent answered free msg
    exact ⟨fun fits => settled.mp (fits short), fun after _ => settled.mpr after⟩
  | @tooLong i msg free long other =>
    refine iff_of_true (fun short => absurd short (Nat.not_le.mpr long)) (answered.settle (fun j msg' data there => ?_)
      (fun j call' there waits => ?_) rfl rfl)
    all_goals rcases Table.get_insert_some there with ⟨rfl, same⟩ | ⟨-, before⟩
    · cases same
    · exact answered.got j msg' data before
    · subst same
      exact absurd ⟨_, rfl⟩ waits
    · exact ⟨call', before, waits, rfl, rfl, fun _ => .rfl⟩
  | @send i msg node effects here sent =>
    refine iff_of_true trivial (answered.progress here (not_returned_opened msg) (by simp) rfl
      (fun _ _ => rfl) rfl ?_ rfl)
    simp only [Echoes.registered, Echoes.put, send_circuits sent]
  | @noSession i msg node effects err here sent =>
    refine iff_of_true trivial (answered.progress here (not_returned_opened msg) (by simp) rfl
      (fun _ _ => rfl) rfl ?_ rfl)
    simp only [Echoes.registered, Echoes.put, send_circuits sent]
  | reply src flying here => exact reply_answered_iff laws consistent answered src flying here
  | put held there live room => exact iff_of_true trivial (answered.put held)
  | lose held there returned => exact iff_of_true trivial (answered.lose held there returned)
  | @take i msg data rest here queue =>
    refine iff_of_true trivial (answered.progress here (not_returned_waiting msg) (fun data' same => ?_) rfl
      (fun j other => ?_) rfl rfl rfl)
    · cases same
      exact answered.head here queue
    · have apart : j ≠ i := other.resolve_right fun waits => waits ⟨_, rfl⟩
      exact (channel_insert rfl j).trans (if_neg apart)
  | @expire i msg here _ _ | @closed i msg here _ _ =>
    exact iff_of_true trivial (answered.progress here (not_returned_waiting msg) (by simp) rfl
      (fun _ _ => rfl) rfl rfl rfl)
  | elsewhere same =>
    refine iff_of_true trivial (answered.settle answered.got (fun i call here waits => ⟨call, here, waits, rfl, rfl, fun _ => .rfl⟩)
      ?_ rfl)
    simp only [Echoes.registered, same]

/-! ## Runs -/

theorem start_consistent {node : Node C} {next : HopLink} {streams : Table UInt16 StreamTx}
    (entry : node.circuits.get handle.cid = some (.origin handle.fwd handle.bwd handle.tag next streams))
    (fresh : streams.get 1 = none) : (start node).Consistent handle := by
  have none : (start node).registered handle = none := by simp only [registered, start, entry, fresh]
  refine ⟨⟨next, streams, entry⟩, fun r here => ?_, ?_, ?_, ?_, .nil, ?_, ?_⟩
  · cases none.symm.trans here
  all_goals simp [start, channel]

theorem start_answered (handle : CircuitHandle) (node : Node C) : (start node).Answered handle := by
  refine ⟨fun i msg data here => ?_, fun i call here => ?_, fun i call here => ?_, fun i call here => ?_⟩
  all_goals cases here

/-- In every run of echo calls on one circuit, from the first: calls get the reply to their own request or none, and no
reply goes astray of a call that waits for it, as long as a stream is opened only when no other call waits for a reply that
has still to arrive, and a late reply arrives only when the call registered last has returned or has its answer. -/
theorem answers_own_iff (laws : C.Lawful) (handle : CircuitHandle) (node : Node C) {next : HopLink}
    {streams : Table UInt16 StreamTx}
    (entry : node.circuits.get handle.cid = some (.origin handle.fwd handle.bwd handle.tag next streams))
    (fresh : streams.get 1 = none) (events : List EchoEvent) (s : Echoes C) :
    Run (Such (Step handle) (Fits handle)) (start node) events s ↔
      Run (Such (Step handle) fun _ _ s => s.Answered handle) (start node) events s := by
  refine Run.such_iff (fun s => s.Consistent handle ∧ s.Answered handle) (fun s event t inv step => ?_)
    (fun s event t inv step => ?_) ⟨start_consistent entry fresh, start_answered handle node⟩
  · exact ⟨inv.1.step laws step.1, (answered_step_iff laws inv.1 inv.2 step.1).mp step.2⟩
  · exact answered_step_iff laws inv.1 inv.2 step

theorem run_consistent (laws : C.Lawful) {node : Node C} {next : HopLink} {streams : Table UInt16 StreamTx}
    (entry : node.circuits.get handle.cid = some (.origin handle.fwd handle.bwd handle.tag next streams))
    (fresh : streams.get 1 = none) {events : List EchoEvent} (run : Run (Step handle) (start node) events s) :
    s.Consistent handle :=
  run.invariant (Consistent handle) (fun _ _ _ consistent step => consistent.step laws step) (start_consistent entry fresh)

/-- `echo` up to its wait, with nothing between its two steps. -/
theorem run_echo {i : Nat} {msg : List UInt8} {node : Node C} {effects : List Effect} (free : s.calls.get i = none)
    (other : ∀ j call, s.calls.get j = some call → call.msg ≠ msg) (sent : s.node.echo handle i msg = (node, effects, .ok ())) :
    ∃ t, Run (Step handle) s [.openStream i msg, .send i] t ∧ t.node = node ∧
      t.calls = (s.calls.insert i ⟨msg, .opened⟩).insert i ⟨msg, .waiting⟩ ∧ t.channels = s.channels.insert i [] ∧
      t.flying = s.flying ++ [(i, (s.node.registerStream handle.cid 1 i).seqOrigin)] ∧ t.handling = s.handling ∧
      t.arrived = s.arrived := by
  unfold Node.echo at sent
  split at sent
  next => cases sent
  next short =>
    have opened : Step handle s (.openStream i msg) _ := .openStream free (Nat.le_of_not_lt short) other
    exact ⟨_, .snoc (.single opened) (.send (Table.get_insert_self ..) sent), rfl, rfl, rfl, rfl, rfl, rfl⟩

theorem step_reply (laws : C.Lawful) (consistent : s.Consistent handle) {i r : Nat} {seq : UInt32} {msg : List UInt8}
    {stage : EchoStage} {after : List (Nat × UInt32)} (src : SocketAddr) (flying : s.flying = (i, seq) :: after)
    (here : s.calls.get i = some ⟨msg, stage⟩) (registered : s.registered handle = some r) :
    ∃ node, Step handle s (.reply i src)
      { s with node, flying := after, handling := s.handling ++ [(r, msg)], arrived := i :: s.arrived } := by
  obtain ⟨-, deliveries⟩ := consistent.deliveries laws src seq msg
  have step : Step handle s (.reply i src) _ := .reply src (show s.flying = [] ++ (i, seq) :: after from flying) here
  rw [deliveries, registered] at step
  exact ⟨_, step⟩

end Echoes

namespace Transparent

open Nbf.Crypto.Transparent

theorem echo_entry : echoOrigin.circuits.get echoHandle.cid = some (.origin echoHandle.fwd echoHandle.bwd echoHandle.tag
    ⟨1, localhost 9100⟩ .empty) := rfl

/-- An echo whose reply comes in time. -/
theorem reply_answers : ∃ events s, s.calls.get 0 = some ⟨[97], .returned (.ok [97])⟩ ∧
    Run (Such (Echoes.Step echoHandle) fun _ _ s => s.Answered echoHandle) (Echoes.start echoOrigin) events s := by
  have run : Run (Such (Echoes.Step echoHandle) (Echoes.Fits echoHandle)) (Echoes.start echoOrigin) [] _ := .nil _
  have run := run.snoc ⟨show Echoes.Step _ _ (.openStream 0 [97]) _ from .openStream rfl (by decide) (fun _ _ here => nomatch here),
    fun _ _ _ here => nomatch here⟩
  have run := run.snoc ⟨show Echoes.Step _ _ (.send 0) _ from .send rfl rfl, trivial⟩
  obtain ⟨node, reply⟩ :=
    Echoes.step_reply lawful (Echoes.run_consistent lawful echo_entry rfl run.forget) (localhost 9100) rfl rfl rfl
  have run := run.snoc ⟨reply, fun r here => .inl (Option.some.inj here).symm⟩
  have run := run.snoc ⟨show Echoes.Step _ _ (.put 0 [97]) _ from .put (show _ = [] ++ _ :: _ from rfl) rfl
    (Echoes.not_returned_waiting _) (show 0 < streamCapacity by decide), trivial⟩
  have run := run.snoc ⟨show Echoes.Step _ _ (.take 0) _ from .take rfl rfl, trivial⟩
  exact ⟨_, _, rfl, (Echoes.answers_own_iff lawful echoHandle echoOrigin echo_entry rfl _ _).mp run⟩

/-- The reply to a call that has timed out answers the next one. -/
theorem late_reply_answers_next : ∃ events s, Run (Echoes.Step echoHandle) (Echoes.start echoOrigin) events s ∧
    s.calls.get 1 = some ⟨[98], .returned (.ok [97])⟩ := by
  have run : Run (Echoes.Step echoHandle) (Echoes.start echoOrigin) [] _ := .nil _
  have run := run.snoc (show Echoes.Step _ _ (.openStream 0 [97]) _ from .openStream rfl (by decide) fun _ _ here => nomatch here)
  have run := run.snoc (show Echoes.Step _ _ (.send 0) _ from .send rfl rfl)
  have run := run.snoc (show Echoes.Step _ _ (.expire 0) _ from .expire rfl rfl (.inl rfl))
  have run := run.snoc (show Echoes.Step _ _ (.openStream 1 [98]) _ from .openStream rfl (by decide) fun j call here => by
    match j with
    | 0 =>
      obtain rfl := Option.some.inj here
      decide
    | j + 1 => cases here)
  have run := run.snoc (show Echoes.Step _ _ (.send 1) _ from .send rfl rfl)
  -- The request of call 0 is still under way, and call 1 is registered.
  obtain ⟨node, reply⟩ :=
    Echoes.step_reply lawful (Echoes.run_consistent lawful echo_entry rfl run) (localhost 9100) rfl rfl rfl
  have run := run.snoc reply
  have run := run.snoc (show Echoes.Step _ _ (.put 1 [97]) _ from .put (show _ = [] ++ _ :: _ from rfl) rfl
    (Echoes.not_returned_waiting _) (show 0 < streamCapacity by decide))
  have run := run.snoc (show Echoes.Step _ _ (.take 1) _ from .take rfl rfl)
  exact ⟨_, _, run, rfl⟩

end Transparent
end Nbf.Net

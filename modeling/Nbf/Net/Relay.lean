import Nbf.Net.Node

/-! RELAY cells (`relay.rs`).

`handle` reads a copy of the entry under one lock, decides on that copy, and
writes `last_fwd` under a later lock. `relayDecide` is the part between the
locks and `writeLastFwd` the second locked block, so that the sequential handler
here and the interleaved one share them.
-/

set_option autoImplicit false

namespace Nbf.Net

open Nbf.Library Nbf.Crypto

structure RelayMsg where
  seq : UInt32
  rcmd : RCmd
  stream : UInt16
  onion : List UInt8
  deriving DecidableEq

/-- The guard and the slices at the head of `handle`; every failure is a silent return. -/
def parseRelay (payload : List UInt8) : Checked NetError RelayMsg :=
  if payload.length < 7 then .error .tooShort else do
  let seq ← Checked.arrayAt 4 payload 0
  let rcmdU8 ← Checked.byteAt payload 4
  let rcmd ← RCmd.tryFrom rcmdU8
  let stream ← Checked.arrayAt 2 payload 5
  let onion ← Checked.sliceFrom payload 7
  return { seq := u32OfLe seq.bytes, rcmd, stream := u16OfLe stream.bytes, onion }

/-- `[seq][rcmd][stream][onion]`. -/
def relayPayload (msg : RelayMsg) : List UInt8 :=
  u32Le msg.seq ++ (msg.rcmd.toU8 :: (u16Le msg.stream ++ msg.onion))

theorem length_relayPayload (msg : RelayMsg) : (relayPayload msg).length = 7 + msg.onion.length := by
  simp [relayPayload]
  omega

theorem parseRelay_relayPayload (msg : RelayMsg) : parseRelay (relayPayload msg) = .ok msg := by
  have long : ¬ (relayPayload msg).length < 7 := by simp [relayPayload]; omega
  have seqAt : (Checked.arrayAt 4 (relayPayload msg) 0 : Checked NetError _) = .ok ⟨u32Le msg.seq, length_u32Le _⟩ :=
    Checked.arrayAt_head ⟨u32Le msg.seq, length_u32Le _⟩
  have rcmdAt : (Checked.byteAt (relayPayload msg) 4 : Checked NetError _) = .ok msg.rcmd.toU8 :=
    Checked.byteAt_append (length_u32Le _).symm
  have split : relayPayload msg =
      (u32Le msg.seq ++ [msg.rcmd.toU8]) ++ (u16Le msg.stream ++ msg.onion) := by simp [relayPayload]
  have streamAt : (Checked.arrayAt 2 (relayPayload msg) 5 : Checked NetError _) =
      .ok ⟨u16Le msg.stream, length_u16Le _⟩ := by
    rw [split]
    exact Checked.arrayAt_append ⟨u16Le msg.stream, length_u16Le _⟩ (by simp)
  have onionAt : (Checked.sliceFrom (relayPayload msg) 7 : Checked NetError _) = .ok msg.onion := by
    rw [split, ← List.append_assoc]
    exact Checked.sliceFrom_append (by simp)
  rw [parseRelay, if_neg long]
  simp only [seqAt, rcmdAt, streamAt, onionAt, Checked.ok_bind, RCmd.tryFrom_toU8, u32OfLe_u32Le, u16OfLe_u16Le,
    Checked.pure_eq]

/-- What a task does after it has read a copy of the entry. -/
inductive Decision where
  | drop
  /-- Origin: hand the data to a stream. -/
  | deliver (tx : StreamTx) (data : List UInt8)
  /-- Relay, backward: send on, no state written. -/
  | pass (dst : SocketAddr) (out : Cell)
  /-- A forward cell was peeled: write `last_fwd`, then send if there is something to send. -/
  | accept (reply : Option (SocketAddr × Cell))
  deriving DecidableEq

def CircuitEntry.withLastFwd (entry : CircuitEntry) (seq : UInt32) : CircuitEntry :=
  match entry with
  | .origin fwd bwd tag next streams => .origin fwd bwd tag next streams
  | .relay tag kFwd kBwd prev next _ => .relay tag kFwd kBwd prev next seq
  | .terminal tag kFwd kBwd prev _ => .terminal tag kFwd kBwd prev seq

def CircuitEntry.tag : CircuitEntry → Octets 16
  | .origin _ _ tag _ _ => tag
  | .relay tag _ _ _ _ _ => tag
  | .terminal tag _ _ _ _ => tag

def CircuitEntry.lastFwd? : CircuitEntry → Option UInt32
  | .origin .. => none
  | .relay _ _ _ _ _ lastFwd => some lastFwd
  | .terminal _ _ _ _ lastFwd => some lastFwd

@[simp] theorem CircuitEntry.tag_withLastFwd (entry : CircuitEntry) (seq : UInt32) :
    (entry.withLastFwd seq).tag = entry.tag := by cases entry <;> rfl

theorem CircuitEntry.lastFwd?_withLastFwd {entry : CircuitEntry} {lastFwd : UInt32} (has : entry.lastFwd? = some lastFwd)
    (seq : UInt32) : (entry.withLastFwd seq).lastFwd? = some seq := by
  cases entry with
  | origin => cases has
  | relay => rfl
  | terminal => rfl

@[simp] theorem CircuitEntry.withLastFwd_withLastFwd (entry : CircuitEntry) (seq seq' : UInt32) :
    (entry.withLastFwd seq).withLastFwd seq' = entry.withLastFwd seq' := by cases entry <;> rfl

variable (C : Crates)

def relayDecide (entry : CircuitEntry) (src : SocketAddr) (msg : RelayMsg) : Decision :=
  match entry with
  | .origin _ bwd tag _ streams =>
    match openBwdAll C bwd tag msg.seq msg.onion with
    | .ok data =>
      match streams.get msg.stream with
      | some tx => .deliver tx data
      | none => .drop
    | _ => .drop
  | .relay tag kFwd kBwd prev next lastFwd =>
    if src = prev.peer then
      if msg.seq ≤ lastFwd then .drop else
      match openOnion C kFwd tag msg.seq msg.onion with
      | .ok inner => .accept (some (next.peer, ⟨next.cid, .relay, 0, relayPayload { msg with onion := inner }⟩))
      | _ => .drop
    else if src = next.peer then
      .pass prev.peer ⟨prev.cid, .relay, 0, relayPayload { msg with onion := sealBwd C kBwd tag msg.seq msg.onion }⟩
    else .drop
  | .terminal tag kFwd kBwd prev lastFwd =>
    if src ≠ prev.peer ∨ msg.seq ≤ lastFwd then .drop else
    match openOnion C kFwd tag msg.seq msg.onion with
    | .ok inner =>
      match msg.rcmd with
      | .echo => .accept (some (prev.peer, ⟨prev.cid, .relay, 0,
          relayPayload { msg with onion := sealBwd C kBwd tag msg.seq inner }⟩))
      | .data => .accept none
      | .drop => .accept none
    | _ => .drop

theorem terminal_passes {peer : SocketAddr} {lastFwd seq : UInt32} (above : lastFwd < seq) :
    ¬ (peer ≠ peer ∨ seq ≤ lastFwd) := by
  rintro (other | replay)
  · exact other rfl
  · exact UInt32.not_le.mpr above replay

/-- The second locked block: `last_fwd` of the entry now under the cid, if it is of the same kind
as the copy that was read. -/
def writeLastFwd (copy : CircuitEntry) (circuits : Table UInt32 CircuitEntry) (cid seq : UInt32) :
    Table UInt32 CircuitEntry :=
  match copy, circuits.get cid with
  | .relay .., some (.relay tag kFwd kBwd prev next _) => circuits.insert cid (.relay tag kFwd kBwd prev next seq)
  | .terminal .., some (.terminal tag kFwd kBwd prev _) => circuits.insert cid (.terminal tag kFwd kBwd prev seq)
  | _, _ => circuits

/-- The write reaches the entry that is there now, as long as it differs from the copy in `last_fwd` only. -/
theorem writeLastFwd_of_copy {copy entry : CircuitEntry} {circuits : Table UInt32 CircuitEntry} {cid : UInt32}
    (stored : circuits.get cid = some entry) (same : entry.withLastFwd 0 = copy.withLastFwd 0)
    (has : copy.lastFwd?.isSome) (seq : UInt32) :
    writeLastFwd copy circuits cid seq = circuits.insert cid (entry.withLastFwd seq) := by
  cases copy with
  | origin => cases has
  | relay =>
    cases entry with
    | relay => simp only [writeLastFwd, stored, CircuitEntry.withLastFwd]
    | origin => cases same
    | terminal => cases same
  | terminal =>
    cases entry with
    | terminal => simp only [writeLastFwd, stored, CircuitEntry.withLastFwd]
    | origin => cases same
    | relay => cases same

theorem writeLastFwd_same {entry : CircuitEntry} {circuits : Table UInt32 CircuitEntry} {cid : UInt32}
    (stored : circuits.get cid = some entry) (seq : UInt32) :
    writeLastFwd entry circuits cid seq = circuits.insert cid (entry.withLastFwd seq) := by
  cases entry with
  | origin fwd bwd tag next streams =>
    rw [writeLastFwd, CircuitEntry.withLastFwd, Table.insert_get_self _ stored]
    all_goals simp
  | relay | terminal => exact writeLastFwd_of_copy stored rfl rfl seq

namespace Decision

def effects : Decision → List Effect
  | .drop => []
  | .deliver tx data => [.deliver tx data]
  | .pass dst out => [.sendCell dst out]
  | .accept reply => reply.toList.map fun (dst, out) => .sendCell dst out

def accepted : Decision → Bool
  | .accept _ => true
  | _ => false

def commit (decision : Decision) (copy : CircuitEntry) (circuits : Table UInt32 CircuitEntry) (cid seq : UInt32) :
    Table UInt32 CircuitEntry :=
  if decision.accepted then writeLastFwd copy circuits cid seq else circuits

theorem get_commit {entry : CircuitEntry} {circuits : Table UInt32 CircuitEntry} {cid : UInt32}
    (stored : circuits.get cid = some entry) (decision : Decision) (seq c : UInt32) :
    (decision.commit entry circuits cid seq).get c =
      if c = cid ∧ decision.accepted then some (entry.withLastFwd seq) else circuits.get c := by
  rw [commit]
  by_cases accepted : decision.accepted
  · rw [if_pos accepted, writeLastFwd_same stored, Table.get_insert]
    simp [accepted]
  · simp [accepted]

end Decision

variable {C}

theorem relayDecide_accepted {entry : CircuitEntry} {src : SocketAddr} {msg : RelayMsg}
    (accepted : (relayDecide C entry src msg).accepted = true) :
    ∃ lastFwd, entry.lastFwd? = some lastFwd ∧ lastFwd < msg.seq := by
  cases entry with
  | origin fwd bwd tag next streams =>
    simp only [relayDecide] at accepted
    split at accepted
    · split at accepted <;> cases accepted
    · cases accepted
  | relay tag kFwd kBwd prev next lastFwd =>
    refine ⟨lastFwd, rfl, UInt32.not_le.mp fun replay => ?_⟩
    simp only [relayDecide, if_pos replay] at accepted
    split at accepted
    · cases accepted
    · split at accepted <;> cases accepted
  | terminal tag kFwd kBwd prev lastFwd =>
    refine ⟨lastFwd, rfl, UInt32.not_le.mp fun replay => ?_⟩
    simp only [relayDecide, if_pos (Or.inr replay)] at accepted
    cases accepted

/-- `relay::handle`, run without interruption. -/
def Node.handleRelay (node : Node C) (src : SocketAddr) (cell : Cell) : Node C × List Effect :=
  match parseRelay cell.payload with
  | .ok msg =>
    match node.circuits.get cell.cid with
    | none => (node, [])
    | some entry =>
      let decision := relayDecide C entry src msg
      ({ node with stats := { node.stats with relayed := node.stats.relayed + 1 },
                   circuits := decision.commit entry node.circuits cell.cid msg.seq },
        decision.effects)
  | _ => (node, [])

def Node.handleCell (node : Node C) (lookup : Lookup) (src : SocketAddr) (cell : Cell) : Node C × List Effect :=
  match cell.cmd with
  | .create => node.handleCreate lookup src cell
  | .created => node.handleCreated src cell
  | .destroy => node.handleDestroy src cell
  | .relay => node.handleRelay src cell
  | .padding => ({ node with stats := { node.stats with paddingRecv := node.stats.paddingRecv + 1 } }, [])

end Nbf.Net

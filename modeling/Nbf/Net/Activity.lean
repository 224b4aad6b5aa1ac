import Nbf.Net.Builds

/-! One node at work: cells from anybody, its own builds, streams, sends and
closes, in any order.

A handler is one step here, although `relay::handle` and `close` take the lock of
`circuits` twice: none is interrupted. `Nbf.Net.Tasks` takes RELAY handlers apart.
A build is taken apart here, too. `Change` lists all that a step can do to the
circuits.
-/

set_option autoImplicit false

namespace Nbf.Net

open Nbf.Library Nbf.Crypto

/-- A node with its builds, each as far as it is. -/
abbrev Running (C : Crates) : Type := Builds C

inductive Event where
  | recv (lookup : Lookup) (src : SocketAddr) (cell : Cell)
  /-- A step of one of the builds. -/
  | build (event : BuildEvent)
  | openStream (cid : UInt32) (stream : UInt16) (tx : StreamTx)
  | send (handle : CircuitHandle) (stream : UInt16) (rcmd : RCmd) (msg : List UInt8)
  | close (handle : CircuitHandle)

variable {C : Crates}

namespace Running

/-- Some build has returned this handle. -/
def Holds (r : Running C) (handle : CircuitHandle) : Prop := ∃ i, r.stages.get i = some (.returned (.ok handle))

inductive Step : Running C → Event → Running C → Prop where
  | recv (r : Running C) (lookup : Lookup) (src : SocketAddr) (cell : Cell) :
      Step r (.recv lookup src cell) (r.recv lookup src cell)
  | build {r r' : Running C} {event : BuildEvent} : event.Own → Builds.Step r event r' → Step r (.build event) r'
  | openStream (r : Running C) (cid : UInt32) (stream : UInt16) (tx : StreamTx) :
      Step r (.openStream cid stream tx) { r with node := r.node.registerStream cid stream tx }
  | send {r : Running C} {handle : CircuitHandle} (stream : UInt16) (rcmd : RCmd) (msg : List UInt8) : r.Holds handle →
      Step r (.send handle stream rcmd msg)
        { r.emit (r.node.send handle stream rcmd msg).2.1 with node := (r.node.send handle stream rcmd msg).1 }
  | close {r : Running C} {handle : CircuitHandle} : r.Holds handle →
      Step r (.close handle) { r.emit (r.node.close handle).2 with node := (r.node.close handle).1 }

end Running

/-! ## What a step does to the circuits -/

/-- The header a CREATE cell completes, peeled by this node. -/
def Node.completes (node : Node C) (cell : Cell) : Option ProcessOutcome :=
  match (node.gather cell).1 with
  | none => none
  | some header =>
    match processHeader C node.identity header with
    | .ok outcome => some outcome
    | _ => none

def Node.createdEntry (node : Node C) (src : SocketAddr) (cid : UInt32) : ProcessOutcome → CircuitEntry
  | .terminal tag kFwd kBwd => .terminal tag kFwd kBwd ⟨cid, src⟩ 0
  | .relay tag kFwd kBwd _ nextAddr _ => .relay tag kFwd kBwd ⟨cid, src⟩ ⟨node.nextCid, nextAddr⟩ 0

def BuildTask.entry (task : BuildTask) : CircuitEntry :=
  .origin task.built.fwdKeys task.built.bwdKeys task.built.tag ⟨task.cid, task.built.firstAddr⟩ .empty

theorem Node.handleCreate_circuits (node : Node C) (lookup : Lookup) (src : SocketAddr) (cell : Cell) :
    (node.handleCreate lookup src cell).1.circuits = match node.completes cell with
      | some outcome => node.circuits.insert cell.cid (node.createdEntry src cell.cid outcome)
      | none => node.circuits := by
  unfold handleCreate completes
  generalize node.gather cell = gathered
  obtain ⟨full, frags⟩ := gathered
  cases full with
  | none => rfl
  | some header =>
    dsimp only
    cases processHeader C node.identity header with
    | ok outcome => cases outcome <;> rfl
    | error _ => rfl
    | panic => rfl

def Node.relays (node : Node C) (src : SocketAddr) (cell : Cell) : Option (RelayMsg × CircuitEntry × Decision) :=
  match parseRelay cell.payload, node.circuits.get cell.cid with
  | .ok msg, some entry => some (msg, entry, relayDecide C entry src msg)
  | _, _ => none

theorem Node.relays_some {node : Node C} {src : SocketAddr} {cell : Cell} {msg : RelayMsg} {entry : CircuitEntry}
    {decision : Decision} (found : node.relays src cell = some (msg, entry, decision)) :
    parseRelay cell.payload = .ok msg ∧ node.circuits.get cell.cid = some entry ∧
      decision = relayDecide C entry src msg := by
  unfold relays at found
  split at found
  · rename_i parsed stored
    simp only [Option.some.injEq, Prod.mk.injEq] at found
    obtain ⟨rfl, rfl, rfl⟩ := found
    exact ⟨parsed, stored, rfl⟩
  · cases found

theorem Node.handleRelay_circuits (node : Node C) (src : SocketAddr) (cell : Cell) :
    (node.handleRelay src cell).1.circuits = match node.relays src cell with
      | some (msg, entry, decision) => decision.commit entry node.circuits cell.cid msg.seq
      | none => node.circuits := by
  unfold handleRelay relays
  cases parseRelay cell.payload with
  | ok msg => cases node.circuits.get cell.cid <;> rfl
  | error _ => rfl
  | panic => rfl

theorem Node.handleCreated_circuits (node : Node C) (src : SocketAddr) (cell : Cell) :
    (node.handleCreated src cell).1.circuits = node.circuits := by
  unfold handleCreated
  split
  · rfl
  · split <;> rfl

theorem Node.handleDestroy_circuits (node : Node C) (src : SocketAddr) (cell : Cell) :
    (node.handleDestroy src cell).1.circuits = node.circuits.remove cell.cid := by
  unfold handleDestroy
  dsimp only
  split <;> rfl

theorem Node.handleCell_circuits (node : Node C) (lookup : Lookup) (src : SocketAddr) (cell : Cell) :
    (node.handleCell lookup src cell).1.circuits = match cell.cmd with
      | .create => match node.completes cell with
        | some outcome => node.circuits.insert cell.cid (node.createdEntry src cell.cid outcome)
        | none => node.circuits
      | .relay => match node.relays src cell with
        | some (msg, entry, decision) => decision.commit entry node.circuits cell.cid msg.seq
        | none => node.circuits
      | .destroy => node.circuits.remove cell.cid
      | .created => node.circuits
      | .padding => node.circuits := by
  unfold handleCell
  cases cell.cmd with
  | create => exact node.handleCreate_circuits lookup src cell
  | created => exact node.handleCreated_circuits src cell
  | destroy => exact node.handleDestroy_circuits src cell
  | relay => exact node.handleRelay_circuits src cell
  | padding => rfl

theorem Node.buildStart_circuits (node : Node C) (lookup : Lookup) (tx : OneshotTx) (route : List NodeId) :
    (node.buildStart lookup tx route).1.circuits = node.circuits := by
  unfold buildStart
  split
  · rfl
  split
  · rfl
  · dsimp only
    split <;> rfl

/-- The link an entry's own cells carry their cid for: towards the previous hop, or the origin's own. -/
def CircuitEntry.link : CircuitEntry → HopLink
  | .origin _ _ _ next _ => next
  | .relay _ _ _ prev _ _ => prev
  | .terminal _ _ _ prev _ => prev

@[simp] theorem CircuitEntry.link_withLastFwd (entry : CircuitEntry) (seq : UInt32) :
    (entry.withLastFwd seq).link = entry.link := by cases entry <;> rfl

theorem Node.link_createdEntry (node : Node C) (src : SocketAddr) (cid : UInt32) (outcome : ProcessOutcome) :
    (node.createdEntry src cid outcome).link = ⟨cid, src⟩ := by cases outcome <;> rfl

/-- All that one step can do to the circuits. -/
inductive Change (circuits : Table UInt32 CircuitEntry) : Table UInt32 CircuitEntry → Prop where
  | same : Change circuits circuits
  /-- A completed CREATE or a finished build stores an entry. -/
  | store (entry : CircuitEntry) : Change circuits (circuits.insert entry.link.cid entry)
  /-- A RELAY cell or a new stream updates an entry. -/
  | renew {cid : UInt32} {entry entry' : CircuitEntry} : circuits.get cid = some entry → entry'.link = entry.link →
      Change circuits (circuits.insert cid entry')
  | remove (cid : UInt32) : Change circuits (circuits.remove cid)

theorem Node.handleCell_change (node : Node C) (lookup : Lookup) (src : SocketAddr) (cell : Cell) :
    Change node.circuits (node.handleCell lookup src cell).1.circuits := by
  rw [handleCell_circuits]
  cases cell.cmd with
  | create =>
    cases node.completes cell with
    | none => exact .same
    | some outcome =>
      have stored : Change node.circuits _ := .store (node.createdEntry src cell.cid outcome)
      rwa [link_createdEntry] at stored
  | relay =>
    simp only [relays]
    cases parseRelay cell.payload with
    | ok msg =>
      cases stored : node.circuits.get cell.cid with
      | none => exact .same
      | some entry =>
        simp only [Decision.commit]
        split
        · rw [writeLastFwd_same stored]
          exact .renew stored (entry.link_withLastFwd _)
        · exact .same
    | error _ => exact .same
    | panic => exact .same
  | destroy => exact .remove cell.cid
  | created => exact .same
  | padding => exact .same

namespace Running

variable {r r' : Running C} {event : Event}

theorem Step.change (step : Step r event r') : Change r.node.circuits r'.node.circuits := by
  cases step with
  | recv lookup src cell => exact r.node.handleCell_change lookup src cell
  | build own step =>
    rcases step.moved own with ⟨rng, pending, -, same⟩ | ⟨-, -, rfl⟩
    · rw [same]
      exact .same
    · exact .store (BuildTask.entry _)
  | openStream cid stream tx =>
    simp only [Node.registerStream]
    split
    · rename_i stored
      exact .renew stored rfl
    · exact .same
  | send stream rcmd msg _ =>
    simp only [Node.send]
    split <;> exact .same
  | close _ =>
    simp only [Node.close]
    split
    · exact .remove _
    · exact .same

/-- To its builds, all that a node does is a run of `Builds`. -/
theorem Step.builds (step : Step r event r') : ∃ event', Builds.Step r event' r' := by
  cases step with
  | recv lookup src cell => exact ⟨_, .recv r lookup src cell⟩
  | build _ step => exact ⟨_, step⟩
  | openStream cid stream tx =>
    have same : (r.node.registerStream cid stream tx).pending = r.node.pending := by
      unfold Node.registerStream
      split <;> rfl
    have step := Builds.Step.elsewhere (s := r) [] same
    simp only [Builds.emit, List.append_nil] at step
    exact ⟨_, step⟩
  | @send handle stream rcmd msg _ =>
    have same : (r.node.send handle stream rcmd msg).1.pending = r.node.pending := by
      unfold Node.send
      dsimp only
      split <;> rfl
    exact ⟨_, .elsewhere _ same⟩
  | @close handle _ =>
    have same : (r.node.close handle).1.pending = r.node.pending := by
      unfold Node.close
      split <;> rfl
    exact ⟨_, .elsewhere _ same⟩

theorem Step.holds (step : Step r event r') {handle : CircuitHandle} (held : r.Holds handle) : r'.Holds handle := by
  obtain ⟨i, done⟩ := held
  obtain ⟨event', step⟩ := step.builds
  exact ⟨i, step.returned done⟩

/-- The steps of a build, as steps of its node. -/
theorem run_of_builds {events : List BuildEvent} (run : Run Builds.Step r events r') (own : ∀ event ∈ events, event.Own) :
    Run Step r (events.map .build) r' := by
  induction run with
  | nil => exact .nil _
  | snoc _ last ih =>
    rw [List.forall_mem_append, List.forall_mem_singleton] at own
    rw [List.map_append]
    exact (ih own.1).snoc (.build own.2 last)

end Running

end Nbf.Net

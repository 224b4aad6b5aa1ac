import Nbf.Library.Erasure
import Nbf.Net.Cover

/-! PADDING leaves no trace (`cover.rs`).

No handler reads what a PADDING cell moves, and none waits behind one for ever: up
to the cells themselves and the counters of them, the circuits run as if nothing
were padded.
-/

set_option autoImplicit false

namespace Nbf.Net

open Nbf.Library Nbf.Crypto

variable {C : Crates} {rng : C.Rng}

/-! ## The handlers -/

namespace Node

/-- The node as if no PADDING cell had come, its generator in a state that says nothing of the rounds. -/
def unpadded (rng : C.Rng) (node : Node C) : Node C := { node with rng, stats := { node.stats with paddingRecv := 0 } }

theorem registerStream_unpadded (node : Node C) (cid : UInt32) (stream : UInt16) (tx : StreamTx) :
    (node.unpadded rng).registerStream cid stream tx = (node.registerStream cid stream tx).unpadded rng := by
  simp only [registerStream, unpadded]
  split <;> rfl

theorem send_unpadded (node : Node C) (handle : CircuitHandle) (stream : UInt16) (rcmd : RCmd) (msg : List UInt8) :
    (node.unpadded rng).send handle stream rcmd msg =
      ((node.send handle stream rcmd msg).1.unpadded rng, (node.send handle stream rcmd msg).2) := by
  simp only [send, unpadded]
  split <;> rfl

theorem sendData_unpadded (node : Node C) (handle : CircuitHandle) (msg : List UInt8) (stream : UInt16) :
    (node.unpadded rng).sendData handle msg stream =
      ((node.sendData handle msg stream).1.unpadded rng, (node.sendData handle msg stream).2) := by
  simp only [sendData]
  split
  · rfl
  · exact send_unpadded node handle stream .data msg

theorem echo_unpadded (node : Node C) (handle : CircuitHandle) (tx : StreamTx) (msg : List UInt8) :
    (node.unpadded rng).echo handle tx msg = ((node.echo handle tx msg).1.unpadded rng, (node.echo handle tx msg).2) := by
  simp only [echo]
  split
  · rfl
  · rw [registerStream_unpadded]
    exact send_unpadded _ handle 1 .echo msg

theorem completeCreate_unpadded (node : Node C) (lookup : Lookup) (src : SocketAddr) (cid : UInt32) (outcome : ProcessOutcome) :
    (node.unpadded rng).completeCreate lookup src cid outcome =
      ((node.completeCreate lookup src cid outcome).1.unpadded rng, (node.completeCreate lookup src cid outcome).2) := by
  cases outcome <;> rfl

theorem handleCreate_unpadded (node : Node C) (lookup : Lookup) (src : SocketAddr) (cell : Cell) :
    (node.unpadded rng).handleCreate lookup src cell =
      ((node.handleCreate lookup src cell).1.unpadded rng, (node.handleCreate lookup src cell).2) := by
  have gathered : (node.unpadded rng).gather cell = node.gather cell := rfl
  simp only [handleCreate, gathered]
  cases (node.gather cell).1 with
  | none => rfl
  | some header =>
    have same : (node.unpadded rng).identity = node.identity := rfl
    simp only [same]
    cases processHeader C node.identity header with
    | ok outcome => exact completeCreate_unpadded { node with createFrags := (node.gather cell).2 } lookup src cell.cid outcome
    | error | panic => rfl

theorem handleRelay_unpadded (node : Node C) (src : SocketAddr) (cell : Cell) :
    (node.unpadded rng).handleRelay src cell = ((node.handleRelay src cell).1.unpadded rng, (node.handleRelay src cell).2) := by
  have same : (node.unpadded rng).circuits = node.circuits := rfl
  simp only [handleRelay, same]
  cases parseRelay cell.payload with
  | ok msg => cases node.circuits.get cell.cid <;> rfl
  | error | panic => rfl

/-- No handler reads the counter of PADDING cells. -/
theorem handleCell_unpadded (node : Node C) (lookup : Lookup) (src : SocketAddr) {cell : Cell} (plain : cell.cmd ≠ .padding) :
    (node.unpadded rng).handleCell lookup src cell =
      ((node.handleCell lookup src cell).1.unpadded rng, (node.handleCell lookup src cell).2) := by
  simp only [handleCell]
  cases cmd : cell.cmd with
  | create => exact handleCreate_unpadded node lookup src cell
  | created =>
    have pending : (node.unpadded rng).pending = node.pending := rfl
    have circuits : (node.unpadded rng).circuits = node.circuits := rfl
    simp only [handleCreated, pending, circuits]
    split
    · rfl
    · split <;> rfl
  | destroy =>
    have circuits : (node.unpadded rng).circuits = node.circuits := rfl
    simp only [handleDestroy, circuits]
    split <;> rfl
  | relay => exact handleRelay_unpadded node src cell
  | padding => exact absurd cmd plain

theorem handleCell_sends {node : Node C} {lookup : Lookup} {src dst : SocketAddr} {cell out : Cell}
    (sends : .sendCell dst out ∈ (node.handleCell lookup src cell).2) : out.cmd ≠ .padding := by
  have cmds : out.cmd = .create ∨ out.cmd = .created ∨ out.cmd = .destroy ∨ out.cmd = .relay := by
    simp only [handleCell] at sends
    split at sends
    · simp only [handleCreate] at sends
      split at sends
      · cases sends
      split at sends
      next outcome _ =>
        cases outcome with
        | terminal =>
          obtain ⟨-, rfl⟩ := Effect.sendCell.inj (List.mem_singleton.mp sends)
          exact .inr (.inl rfl)
        | relay =>
          rcases List.mem_cons.mp sends with same | sends
          · cases same
          · obtain ⟨frag, -, same⟩ := List.mem_map.mp sends
            obtain ⟨-, rfl⟩ := Effect.sendCell.inj same
            exact .inl rfl
      · cases sends
    · simp only [handleCreated] at sends
      split at sends
      · simp at sends
      · split at sends
        · obtain ⟨-, rfl⟩ := Effect.sendCell.inj (List.mem_singleton.mp sends)
          exact .inr (.inl rfl)
        · cases sends
    · simp only [handleDestroy] at sends
      split at sends
      · obtain ⟨-, rfl⟩ := Effect.sendCell.inj (List.mem_singleton.mp sends)
        exact .inr (.inr (.inl rfl))
      · obtain ⟨-, rfl⟩ := Effect.sendCell.inj (List.mem_singleton.mp sends)
        exact .inr (.inr (.inl rfl))
      · cases sends
    · exact .inr (.inr (.inr (handleRelay_relays sends)))
    · cases sends
  rcases cmds with same | same | same | same <;> simp [same]

theorem send_plain {node node' : Node C} {handle : CircuitHandle} {stream : UInt16} {rcmd : RCmd} {msg : List UInt8}
    {effects : List Effect} {result : Except NetError Unit} (sent : node.send handle stream rcmd msg = (node', effects, result)) :
    ∀ dst out, .sendCell dst out ∈ effects → out.cmd ≠ .padding := by
  intro dst out sends
  simp only [send] at sent
  split at sent <;> cases sent
  · obtain ⟨-, rfl⟩ := Effect.sendCell.inj (List.mem_singleton.mp sends)
    simp
  · cases sends

theorem sendData_plain {node node' : Node C} {handle : CircuitHandle} {msg : List UInt8} {stream : UInt16} {effects : List Effect}
    {result : Except NetError Unit} (sent : node.sendData handle msg stream = (node', effects, result)) :
    ∀ dst out, .sendCell dst out ∈ effects → out.cmd ≠ .padding := by
  simp only [sendData] at sent
  split at sent
  · cases sent
    simp
  · exact send_plain sent

theorem echo_plain {node node' : Node C} {handle : CircuitHandle} {tx : StreamTx} {msg : List UInt8} {effects : List Effect}
    {result : Except NetError Unit} (echoed : node.echo handle tx msg = (node', effects, result)) :
    ∀ dst out, .sendCell dst out ∈ effects → out.cmd ≠ .padding := by
  simp only [echo] at echoed
  split at echoed
  · cases echoed
    simp
  · exact send_plain echoed

theorem coverDrop_unpadded (rng : C.Rng) (node : Node C) (order : List UInt32) (stats : CoverStats) :
    (node.unpadded rng).coverDrop order { stats with paddingSent := 0 } = ((node.coverDrop order stats).1.unpadded rng,
      (node.coverDrop order stats).2.1, { (node.coverDrop order stats).2.2 with paddingSent := 0 }) := by
  have drops : (node.unpadded rng).dropsOn order = node.dropsOn order := rfl
  have picks : (node.unpadded rng).pickOrigin order = node.pickOrigin order := rfl
  simp only [coverDrop, drops, picks]
  split
  · cases node.pickOrigin order with
    | none => rfl
    | some handle =>
      simp only [sendData_unpadded]
  · rfl

theorem coverDrop_plain {node node' : Node C} {order : List UInt32} {stats stats' : CoverStats} {effects : List Effect}
    (dropped : node.coverDrop order stats = (node', effects, stats')) :
    ∀ dst out, .sendCell dst out ∈ effects → out.cmd ≠ .padding := by
  simp only [coverDrop] at dropped
  split at dropped
  · split at dropped
    next handle _ =>
      cases sent : node.sendData handle dropMsg 0 with
      | mk next rest =>
        rw [sent] at dropped
        cases dropped
        exact sendData_plain sent
    · cases dropped
      simp
  · cases dropped
    simp

end Node

/-! ## The network -/

def Packet.pads (p : Packet) : Bool := p.cell.cmd = .padding

def unpaddedWire (wire : List Packet) : List Packet := wire.filter fun p => !p.pads

namespace Network

def unpadded (rng : C.Rng) (net : Network C) : Network C where
  nodes := fun a => (net.nodes.get a).map (Node.unpadded rng)
  wire := unpaddedWire net.wire
  notices := net.notices

variable {net : Network C} {addr : SocketAddr} {node node' : Node C} {effects : List Effect} {wire : List Packet}

theorem unpadded_insert :
    (fun a => ((net.nodes.insert addr node).get a).map (Node.unpadded rng) : Table SocketAddr (Node C)) =
      (net.unpadded rng).nodes.insert addr (node.unpadded rng) := by
  funext a
  refine Eq.trans ?_ (Table.get_insert _ addr a _).symm
  rw [Table.get_insert]
  split <;> rfl

theorem unpadded_update (plain : ∀ dst out, .sendCell dst out ∈ effects → out.cmd ≠ .padding) :
    (net.update addr node effects wire).unpadded rng =
      (net.unpadded rng).update addr (node.unpadded rng) effects (unpaddedWire wire) := by
  have sent : unpaddedWire (packetsOf addr effects) = packetsOf addr effects := by
    refine List.filter_eq_self.mpr fun q member => ?_
    simpa [Packet.pads] using plain _ _ (of_mem_packetsOf member).2
  have wires : unpaddedWire (wire ++ packetsOf addr effects) = unpaddedWire wire ++ packetsOf addr effects :=
    (List.filter_append ..).trans (congrArg _ sent)
  simp only [update, unpadded, wires]
  congr 1
  exact unpadded_insert

theorem update_unseen (rng : C.Rng) (present : net.nodes.get addr = some node) (same : node'.unpadded rng = node.unpadded rng)
    (pads : ∀ dst out, .sendCell dst out ∈ effects → out.cmd = .padding) (quiet : noticesOf addr effects = []) :
    (net.update addr node' effects wire).unpadded rng = { net.unpadded rng with wire := unpaddedWire wire } := by
  have sent : unpaddedWire (packetsOf addr effects) = [] := by
    refine List.filter_eq_nil_iff.mpr fun q member => ?_
    simp [Packet.pads, pads _ _ (of_mem_packetsOf member).2]
  have wires : unpaddedWire (wire ++ packetsOf addr effects) = unpaddedWire wire :=
    (List.filter_append ..).trans ((congrArg _ sent).trans (List.append_nil _))
  have nodes : (net.unpadded rng).nodes.insert addr (node'.unpadded rng) = (net.unpadded rng).nodes := by
    refine Table.insert_get_self _ ?_
    rw [same]
    exact congrArg (Option.map (Node.unpadded rng)) present
  simp only [update, quiet, List.append_nil]
  rw [unpadded, wires, unpadded_insert, nodes]
  rfl

theorem receive_unpadded (net : Network C) (lookup : Lookup) {p : Packet} (rest : List Packet) (plain : p.pads = false) :
    (net.receive lookup p rest).unpadded rng = (net.unpadded rng).receive lookup p (unpaddedWire rest) := by
  have cmd : p.cell.cmd ≠ .padding := by simpa [Packet.pads] using plain
  have get : (net.unpadded rng).nodes.get p.dst = (net.nodes.get p.dst).map (Node.unpadded rng) := rfl
  unfold receive
  rw [get]
  cases net.nodes.get p.dst with
  | none => rfl
  | some node =>
    simp only [Option.map_some, Node.handleCell_unpadded node lookup p.src cmd]
    exact unpadded_update fun dst out sends => Node.handleCell_sends sends

theorem receive_unseen (rng : C.Rng) (net : Network C) (lookup : Lookup) {p : Packet} (rest : List Packet) (pads : p.pads) :
    (net.receive lookup p rest).unpadded rng = { net.unpadded rng with wire := unpaddedWire rest } ∧
      (net.receive lookup p rest).wire = rest ∧ (net.receive lookup p rest).notices = net.notices := by
  have cmd : p.cell.cmd = .padding := by simpa [Packet.pads] using pads
  unfold receive
  cases present : net.nodes.get p.dst with
  | none => exact ⟨rfl, rfl, rfl⟩
  | some node =>
    simp only [Node.handleCell, cmd]
    exact ⟨update_unseen rng present rfl (by simp) rfl, List.append_nil _, List.append_nil _⟩

end Network

/-! ## The traffic -/

def TrafficEvent.pads : TrafficEvent → Bool
  | .padding _ _ _ => true
  | .arrive p => p.pads
  | _ => false

namespace Traffic

def unpaddedCover (cover : Table SocketAddr CoverStats) : Table SocketAddr CoverStats :=
  fun a => some { (cover.get a).getD {} with paddingSent := 0 }

/-- The traffic without its PADDING cells, and without the counters of these and what the rounds have drawn. -/
def unpadded (rng : C.Rng) (s : Traffic C) : Traffic C := { s with net := s.net.unpadded rng, cover := unpaddedCover s.cover }

variable {circuits : List OpenCircuit} {s t : Traffic C} {event : TrafficEvent}

theorem unpaddedCover_insert (cover : Table SocketAddr CoverStats) (addr : SocketAddr) (stats : CoverStats) :
    unpaddedCover (cover.insert addr stats) = (unpaddedCover cover).insert addr { stats with paddingSent := 0 } := by
  funext a
  refine Eq.trans ?_ (Table.get_insert _ addr a _).symm
  rw [unpaddedCover, Table.get_insert]
  split <;> rfl

theorem unpadded_acts {addr : SocketAddr} {node : Node C} {effects : List Effect} {cover : Table SocketAddr CoverStats}
    {said : Log Ask} (plain : ∀ dst out, .sendCell dst out ∈ effects → out.cmd ≠ .padding) :
    Traffic.unpadded rng { s with net := s.net.update addr node effects s.net.wire, cover, said } =
      { s.unpadded rng with
          net := (s.unpadded rng).net.update addr (node.unpadded rng) effects (s.unpadded rng).net.wire,
          cover := unpaddedCover cover, said } := by
  simp only [unpadded, Network.unpadded_update plain]
  rfl

theorem Step.unseen (rng : C.Rng) (step : Step circuits s event t) (pads : event.pads) : t.unpadded rng = s.unpadded rng := by
  cases step with
  | echo | sendData | drop => cases pads
  | @padding addr node peers i effects stats after present drawn =>
    have same : Node.unpadded rng { node with rng := after } = node.unpadded rng := rfl
    have cover : unpaddedCover (s.cover.insert addr stats) = unpaddedCover s.cover := by
      rw [unpaddedCover_insert]
      refine Table.insert_get_self _ (congrArg some ?_)
      simp only [coverPadding] at drawn
      split at drawn <;> cases drawn <;> rfl
    have sends : (∀ dst out, .sendCell dst out ∈ effects → out.cmd = .padding) ∧ noticesOf addr effects = [] := by
      simp only [coverPadding] at drawn
      split at drawn <;> cases drawn
      · exact ⟨by simp, rfl⟩
      · refine ⟨fun dst out member => ?_, rfl⟩
        simp only [List.mem_cons, reduceCtorEq, List.not_mem_nil, or_false, false_or, Effect.sendCell.injEq] at member
        rw [member.2]
        rfl
    simp only [unpadded, Network.update_unseen rng present same sends.1 sends.2, cover]
    rfl
  | @arrive p net' step =>
    cases step with
    | @deliver before after lookup wire _ =>
      obtain ⟨net, -, notices⟩ := s.net.receive_unseen rng lookup (before ++ after) pads
      have cmd : p.cell.cmd = .padding := by simpa [TrafficEvent.pads, Packet.pads] using pads
      -- Arrivals are counted of RELAY cells only.
      have apart (cid : UInt32) : ¬ p.Own cid := fun own => by cases own.2.symm.trans cmd
      have wires : unpaddedWire (before ++ after) = unpaddedWire s.net.wire := by
        have gone : p.pads = true := pads
        simp [unpaddedWire, wire, List.filter_append, gone]
      have heard : s.heard.note p.dst p.cell.cid (handed p.dst ((s.net.receive lookup p (before ++ after)).notices.drop
          s.net.notices.length)) = s.heard := by
        rw [notices, List.drop_length]
        funext a c
        simp [Log.note, handed]
      simp only [unpadded, net, heard, apart, if_false, wires]
      rfl

theorem Step.seen (step : Step circuits s event t) (plain : event.pads = false) :
    Step circuits (s.unpadded rng) event (t.unpadded rng) := by
  have present' {a : SocketAddr} {node : Node C} (present : s.net.nodes.get a = some node) :
      (s.unpadded rng).net.nodes.get a = some (node.unpadded rng) := congrArg (Option.map (Node.unpadded rng)) present
  cases step with
  | @echo c node node' effects tx msg listed present echoed =>
    have echoed' : (node.unpadded rng).echo c.handle tx msg = (node'.unpadded rng, effects, .ok ()) := by
      rw [Node.echo_unpadded, echoed]
    have acts : Step circuits (s.unpadded rng) (.echo c tx msg) _ := .echo listed (present' present) echoed'
    rwa [unpadded_acts (Node.echo_plain echoed)]
  | @sendData c node node' effects msg stream listed present sent =>
    have sent' : (node.unpadded rng).sendData c.handle msg stream = (node'.unpadded rng, effects, .ok ()) := by
      rw [Node.sendData_unpadded, sent]
    have acts : Step circuits (s.unpadded rng) (.sendData c msg stream) _ := .sendData listed (present' present) sent'
    rwa [unpadded_acts (Node.sendData_plain sent)]
  | padding => cases plain
  | @drop addr node node' order handle effects stats present picked dropped =>
    have dropped' := node.coverDrop_unpadded rng order (s.coverAt addr)
    rw [dropped] at dropped'
    have acts : Step circuits (s.unpadded rng) (.drop addr order) _ := .drop (present' present) picked dropped'
    rwa [unpadded_acts (Node.coverDrop_plain dropped), unpaddedCover_insert]
  | @arrive p net' step =>
    cases step with
    | @deliver before after lookup wire first =>
      have wires : (s.unpadded rng).net.wire = unpaddedWire before ++ p :: unpaddedWire after := by
        have kept : p.pads = false := plain
        simp [unpadded, Network.unpadded, unpaddedWire, wire, List.filter_append, kept]
      have step : Network.Step (s.unpadded rng).net p ((s.net.receive lookup p (before ++ after)).unpadded rng) := by
        rw [Network.receive_unpadded _ _ _ plain, unpaddedWire, List.filter_append]
        exact .deliver lookup wires fun q member => first q (List.mem_filter.mp member).1
      exact .arrive step

/-- Every PADDING cell ahead of another on its link can arrive before it. -/
theorem cleared (circuits : List OpenCircuit) {p : Packet} {before after : List Packet}
    (wire : (s.unpadded rng).net.wire = before ++ p :: after)
    (first : ∀ q ∈ before, ¬ (q.src = p.src ∧ q.dst = p.dst)) :
    ∃ events t ahead rest, Run (Step circuits) s events t ∧ (∀ event ∈ events, event.pads) ∧ t.unpadded rng = s.unpadded rng ∧
      t.net.wire = ahead ++ p :: rest ∧ (∀ q ∈ ahead, ¬ (q.src = p.src ∧ q.dst = p.dst)) ∧
      unpaddedWire ahead = before ∧ unpaddedWire rest = after := by
  induction length : s.net.wire.length using Nat.strong_induction_on generalizing s with
  | _ n ih =>
    obtain ⟨front, back, whole, kept, rear⟩ := List.filter_eq_append_iff.mp wire
    obtain ⟨gap, rest, rfl, pads, -, kept'⟩ := List.filter_eq_cons_iff.mp rear
    -- Either nothing is ahead of the cell, or the first cell that is arrives, and the rest is one shorter.
    cases found : (front ++ gap).find? fun q => q.src = p.src ∧ q.dst = p.dst with
    | none =>
      have ahead : unpaddedWire (front ++ gap) = before := by
        have gone : gap.filter (fun q => !q.pads) = [] := List.filter_eq_nil_iff.mpr pads
        rw [unpaddedWire, List.filter_append, kept, gone, List.append_nil]
      refine ⟨[], s, front ++ gap, rest, .nil s, by simp, rfl, by simp [whole], fun q member => ?_, ahead, kept'⟩
      simpa using List.find?_eq_none.mp found q member
    | some q =>
      obtain ⟨same, early, late, split, others⟩ := List.find?_eq_some_iff_append.mp found
      -- Among the other cells it would be ahead as well.
      have padding : q.pads := by
        by_contra plain
        have member : q ∈ front ++ gap := split ▸ by simp
        rcases List.mem_append.mp member with front | gap
        · exact first q (kept ▸ List.mem_filter.mpr ⟨front, by simpa using plain⟩) (by simpa using same)
        · exact pads q gap (by simpa using plain)
      have wire' : s.net.wire = early ++ q :: (late ++ p :: rest) := by
        rw [whole, ← List.append_assoc, split]
        simp
      have before : ∀ r ∈ early, ¬ (r.src = q.src ∧ r.dst = q.dst) := by
        obtain ⟨src, dst⟩ := of_decide_eq_true same
        intro r member
        rw [src, dst]
        simpa only [Bool.not_eq_true', decide_eq_false_iff_not] using others r member
      have step : Step circuits s (.arrive q) _ := .arrive (.deliver (fun _ => .error .timeout) wire' before)
      have unseen := step.unseen rng padding
      have shorter := (s.net.receive_unseen rng (fun _ => .error .timeout) (early ++ (late ++ p :: rest)) padding).2.1
      obtain ⟨events, t, ahead, rest', run, quiet, same', onWire⟩ := ih _ (by
        rw [← length, wire', shorter]
        simp) (unseen ▸ wire) rfl
      refine ⟨.arrive q :: events, t, ahead, rest', run.cons step, ?_, same'.trans unseen, onWire⟩
      exact List.forall_mem_cons.mpr ⟨padding, quiet⟩

def arrived (s : Traffic C) (p : Packet) (net : Network C) : Traffic C :=
  { s with net, heard := s.heard.note p.dst p.cell.cid (handed p.dst (net.notices.drop s.net.notices.length)),
           arrivals := fun cid => if p.Own cid then s.arrivals cid + 1 else s.arrivals cid }

theorem Step.back {u : Traffic C} (step : Step circuits (s.unpadded rng) event u) (plain : event.pads = false) :
    ∃ before t, Run (Step circuits) s (before ++ [event]) t ∧ (∀ other ∈ before, other.pads) ∧ t.unpadded rng = u := by
  cases step with
  | @echo c node₁ node' effects tx msg listed present echoed =>
    obtain ⟨node, there, rfl⟩ := Option.map_eq_some_iff.mp present
    cases out : node.echo c.handle tx msg with
    | mk next rest =>
      rw [Node.echo_unpadded, out] at echoed
      cases echoed
      have acts : Step circuits s (.echo c tx msg) _ := .echo listed there out
      exact ⟨[], _, .single acts, by simp, unpadded_acts (Node.echo_plain out)⟩
  | @sendData c node₁ node' effects msg stream listed present sent =>
    obtain ⟨node, there, rfl⟩ := Option.map_eq_some_iff.mp present
    cases out : node.sendData c.handle msg stream with
    | mk next rest =>
      rw [Node.sendData_unpadded, out] at sent
      cases sent
      have acts : Step circuits s (.sendData c msg stream) _ := .sendData listed there out
      exact ⟨[], _, .single acts, by simp, unpadded_acts (Node.sendData_plain out)⟩
  | padding => cases plain
  | @drop addr node₁ node' order handle effects stats present picked dropped =>
    obtain ⟨node, there, rfl⟩ := Option.map_eq_some_iff.mp present
    cases out : node.coverDrop order (s.coverAt addr) with
    | mk next rest =>
      have dropped' := node.coverDrop_unpadded rng order (s.coverAt addr)
      rw [out] at dropped'
      cases dropped'.symm.trans dropped
      have acts : Step circuits s (.drop addr order) _ := .drop there picked out
      refine ⟨[], _, .single acts, by simp, ?_⟩
      rw [unpadded_acts (Node.coverDrop_plain out), unpaddedCover_insert]
      rfl
  | @arrive p net' step =>
    cases step with
    | @deliver before after lookup wire first =>
      obtain ⟨events, t, ahead, rest, run, quiet, same, wire', first', kept, kept'⟩ := cleared circuits wire first
      have last : Step circuits t (.arrive p) (t.arrived p (t.net.receive lookup p (ahead ++ rest))) :=
        .arrive (.deliver lookup wire' first')
      have handled : (t.net.receive lookup p (ahead ++ rest)).unpadded rng = (s.unpadded rng).net.receive lookup p (before ++ after) := by
        rw [Network.receive_unpadded _ _ _ plain, unpaddedWire, List.filter_append, ← kept, ← kept', ← same]
        rfl
      refine ⟨events, _, run.snoc last, quiet, ?_⟩
      -- What is left out does not enter what an arrival hands on.
      change (t.unpadded rng).arrived p ((t.net.receive lookup p (ahead ++ rest)).unpadded rng) = _
      rw [handled, same]
      rfl

theorem erases_padding (circuits : List OpenCircuit) (rng : C.Rng) :
    Erases (Step circuits) (Step circuits) (unpadded rng) TrafficEvent.pads where
  unseen _ _ _ := Step.unseen rng
  seen _ _ _ := Step.seen
  back _ _ _ := Step.back

/-- Padding shows nowhere and keeps nothing back: on any number of circuits, what can happen without PADDING cells is exactly
what happens with them, once they, the counters of them and what the rounds draw are left out. -/
theorem padding_unseen (circuits : List OpenCircuit) (rng : C.Rng) (s u : Traffic C) (events : List TrafficEvent)
    (plain : ∀ event ∈ events, event.pads = false) : Run (Step circuits) (s.unpadded rng) events u ↔
      ∃ padded t, Run (Step circuits) s padded t ∧ (padded.filter fun event => !event.pads) = events ∧ t.unpadded rng = u :=
  (erases_padding circuits rng).run_iff plain

end Traffic

namespace Transparent

open Nbf.Crypto.Transparent

/-- Two echoes, a drop and a PADDING cell: without the last, the same to everybody else. -/
theorem padding_left_out : ∃ t : Traffic crates,
    Run (Traffic.Step sharedCircuits) (Traffic.start sharedNet) sharedEvents t ∧
      Run (Traffic.Step sharedCircuits) ((Traffic.start sharedNet).unpadded (0 : UInt8))
        [.echo mainCircuit 7 [104, 105], .drop (localhost 9000) [1], .echo sideCircuit 8 [33]] (t.unpadded (0 : UInt8)) := by
  obtain ⟨t, run, -⟩ := shared_sent
  refine ⟨t, run, (Traffic.padding_unseen sharedCircuits _ _ _ _ ?_).mpr ⟨sharedEvents, t, run, rfl, rfl⟩⟩
  simp [TrafficEvent.pads]

end Transparent
end Nbf.Net

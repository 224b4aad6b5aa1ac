import Mathlib.Algebra.Order.BigOperators.Group.List
import Mathlib.Algebra.Order.Group.Nat
import Nbf.Dht.Peers
import Nbf.Net.Session

/-! The cover loop (`cover.rs`), and everything that nodes with open circuits send.

Each round pads a peer that it draws and sends data that nobody reads on a circuit
of the node's own. Any number of circuits are in use at once, each under a cid of
its own, while cells of all of them and of the cover are on their way. An ask draws
its number and sends its cell in one step; cells of one link are handled one at a
time, in order.
-/

set_option autoImplicit false

namespace Nbf.Net

open Nbf.Library Nbf.Crypto

variable {C : Crates}

/-- The counters of `Stats` that nothing but the cover loop moves. -/
structure CoverStats where
  paddingSent : Nat := 0
  dropsSent : Nat := 0

def paddingCell : Cell := ⟨0, .padding, 0, []⟩

/-- The first half of a round: a PADDING cell to the peer drawn, counted when the link has `sent` it. -/
def coverPadding (stats : CoverStats) (drawn : Option (SocketAddr × Octets 32)) (sent : Bool) : List Effect × CoverStats :=
  match drawn with
  | none => ([], stats)
  | some (peer, linkPub) =>
    ([.ensurePeerLink peer linkPub, .sendCell peer paddingCell],
      if sent then { stats with paddingSent := stats.paddingSent + 1 } else stats)

def dropMsg : List UInt8 := .replicate 64 0

namespace Node

/-- `pick_origin`: the first Origin entry, in the order in which the map happens to iterate. -/
def pickOrigin (node : Node C) (order : List UInt32) : Option CircuitHandle :=
  order.findSome? fun cid => match node.circuits.get cid with
    | some (.origin fwd bwd tag _ _) => some ⟨cid, fwd, bwd, tag⟩
    | _ => none

def dropsOn (node : Node C) (order : List UInt32) : Bool :=
  order.any fun cid => match node.circuits.get cid with
    | some (.origin ..) => true
    | _ => false

/-- The second half of a round. The drop is counted whether or not it could be sent. -/
def coverDrop (node : Node C) (order : List UInt32) (stats : CoverStats) : Node C × List Effect × CoverStats :=
  if node.dropsOn order then
    match node.pickOrigin order with
    | some handle =>
      let (node, effects, _) := node.sendData handle dropMsg 0
      (node, effects, { stats with dropsSent := stats.dropsSent + 1 })
    | none => (node, [], stats)
  else (node, [], stats)

theorem pickOrigin_some {node : Node C} {order : List UInt32} {handle : CircuitHandle}
    (picked : node.pickOrigin order = some handle) :
    ∃ next streams, node.circuits.get handle.cid = some (.origin handle.fwd handle.bwd handle.tag next streams) := by
  obtain ⟨cid, -, found⟩ := List.exists_of_findSome?_eq_some picked
  split at found
  next fwd bwd tag next streams stored =>
    obtain rfl := Option.some.inj found
    exact ⟨next, streams, stored⟩
  · cases found

theorem dropsOn_eq (node : Node C) (order : List UInt32) : node.dropsOn order = (node.pickOrigin order).isSome := by
  rw [dropsOn, pickOrigin, List.isSome_findSome?]
  congr 1
  funext cid
  split <;> rfl

theorem coverDrop_eq {node : Node C} {order : List UInt32} {handle : CircuitHandle} (picked : node.pickOrigin order = some handle)
    (stats : CoverStats) :
    node.coverDrop order stats = ((node.sendData handle dropMsg 0).1, (node.sendData handle dropMsg 0).2.1,
      { stats with dropsSent := stats.dropsSent + 1 }) := by
  rw [coverDrop, dropsOn_eq, picked]
  rfl

end Node

/-! ## All that is sent and arrives -/

structure OpenCircuit where
  originAddr : SocketAddr
  handle : CircuitHandle
  first : Hop
  rest : List Hop

abbrev Log (α : Type) := SocketAddr → UInt32 → List α

def Log.note {α : Type} (log : Log α) (addr : SocketAddr) (cid : UInt32) (more : List α) : Log α :=
  fun a c => if a = addr ∧ c = cid then log a c ++ more else log a c

structure Traffic (C : Crates) where
  net : Network C
  cover : Table SocketAddr CoverStats
  /-- What the origin at an address has said under a cid. -/
  said : Log Ask
  /-- What the cells that arrived under a cid have handed to the streams at an address. -/
  heard : Log (List UInt8)
  /-- The RELAY cells that have arrived under a cid, wherever. -/
  arrivals : UInt32 → Nat

inductive TrafficEvent where
  | echo (c : OpenCircuit) (tx : StreamTx) (msg : List UInt8)
  | sendData (c : OpenCircuit) (msg : List UInt8) (stream : UInt16)
  | padding (addr : SocketAddr) (peers : List (NodeId × SocketAddr × Octets 32)) (i : Nat)
  | drop (addr : SocketAddr) (order : List UInt32)
  | arrive (p : Packet)

namespace Traffic

def coverAt (s : Traffic C) (addr : SocketAddr) : CoverStats := (s.cover.get addr).getD {}

/-- Calls on the handles of the circuits, halves of the rounds of the cover loops (but drops without a circuit), and
arrivals. What a round draws leaves the generator in some state; the link keys are the link's. -/
inductive Step (circuits : List OpenCircuit) : Traffic C → TrafficEvent → Traffic C → Prop where
  | echo {s : Traffic C} {c : OpenCircuit} {node node' : Node C} {effects : List Effect} {tx : StreamTx} {msg : List UInt8} :
      c ∈ circuits → s.net.nodes.get c.originAddr = some node → node.echo c.handle tx msg = (node', effects, .ok ()) →
      Step circuits s (.echo c tx msg) { s with
        net := s.net.update c.originAddr node' effects s.net.wire,
        said := s.said.note c.originAddr c.handle.cid [⟨node.seqOrigin, .echo, 1, msg⟩] }
  | sendData {s : Traffic C} {c : OpenCircuit} {node node' : Node C} {effects : List Effect} {msg : List UInt8} {stream : UInt16} :
      c ∈ circuits → s.net.nodes.get c.originAddr = some node → node.sendData c.handle msg stream = (node', effects, .ok ()) →
      Step circuits s (.sendData c msg stream) { s with
        net := s.net.update c.originAddr node' effects s.net.wire,
        said := s.said.note c.originAddr c.handle.cid [⟨node.seqOrigin, .data, stream, msg⟩] }
  | padding {s : Traffic C} {addr : SocketAddr} {node : Node C} {peers : List (NodeId × SocketAddr × Octets 32)} {i : Nat}
      {effects : List Effect} {stats : CoverStats} (rng : C.Rng) : s.net.nodes.get addr = some node →
      coverPadding (s.coverAt addr) (Dht.pickPeer peers i) true = (effects, stats) →
      Step circuits s (.padding addr peers i) { s with
        net := s.net.update addr { node with rng } effects s.net.wire, cover := s.cover.insert addr stats }
  | drop {s : Traffic C} {addr : SocketAddr} {node node' : Node C} {order : List UInt32} {handle : CircuitHandle}
      {effects : List Effect} {stats : CoverStats} : s.net.nodes.get addr = some node → node.pickOrigin order = some handle →
      node.coverDrop order (s.coverAt addr) = (node', effects, stats) →
      Step circuits s (.drop addr order) { s with
        net := s.net.update addr node' effects s.net.wire, cover := s.cover.insert addr stats,
        said := s.said.note addr handle.cid [⟨node.seqOrigin, .data, 0, dropMsg⟩] }
  | arrive {s : Traffic C} {p : Packet} {net' : Network C} : Network.Step s.net p net' →
      Step circuits s (.arrive p) { s with
        net := net', heard := s.heard.note p.dst p.cell.cid (handed p.dst (net'.notices.drop s.net.notices.length)),
        arrivals := fun cid => if p.Own cid then s.arrivals cid + 1 else s.arrivals cid }

def talk (s : Traffic C) (c : OpenCircuit) : Talk C :=
  ⟨s.net, s.said c.originAddr c.handle.cid, s.heard c.originAddr c.handle.cid, s.arrivals c.handle.cid⟩

end Traffic

/-! ## One circuit leaves the others alone -/

/-- An entry keeps its kind and the cids that it names. -/
structure CircuitEntry.Alike (entry entry' : CircuitEntry) : Prop where
  under : ∀ cid, entry.Under cid → entry'.Under cid
  origin : entry'.lastFwd? = none → entry.lastFwd? = none

theorem CircuitEntry.Alike.refl (entry : CircuitEntry) : entry.Alike entry := ⟨fun _ => id, id⟩

theorem CircuitEntry.alike_withLastFwd (entry : CircuitEntry) (seq : UInt32) : entry.Alike (entry.withLastFwd seq) := by
  cases entry with
  | origin => exact .refl _
  | relay | terminal => exact ⟨fun _ => id, nofun⟩

/-- Work under one cid: no entry is new, and those under other cids are as before. -/
structure Node.Serves (node node' : Node C) (cid : UInt32) (effects : List Effect) : Prop where
  others : ∀ c ≠ cid, node'.circuits.get c = node.circuits.get c
  alike : ∀ c entry', node'.circuits.get c = some entry' → ∃ entry, node.circuits.get c = some entry ∧ entry.Alike entry'
  sends : ∀ dst out, .sendCell dst out ∈ effects → (out.cid = cid ∧ out.cmd = .relay) ∨ out.cmd = .padding

namespace Node.Serves

theorem of_same {node node' : Node C} {cid : UInt32} {effects : List Effect} (same : node'.circuits = node.circuits)
    (sends : ∀ dst out, .sendCell dst out ∈ effects → (out.cid = cid ∧ out.cmd = .relay) ∨ out.cmd = .padding) :
    node.Serves node' cid effects where
  others _ _ := by rw [same]
  alike _ entry' stored := ⟨entry', same ▸ stored, .refl entry'⟩
  sends := sends

theorem send {node node' : Node C} {handle : CircuitHandle} {stream : UInt16} {rcmd : RCmd} {msg : List UInt8}
    {effects : List Effect} {result : Except NetError Unit} (sent : node.send handle stream rcmd msg = (node', effects, result)) :
    node.Serves node' handle.cid effects := by
  simp only [Node.send] at sent
  split at sent
  · simp only [Prod.mk.injEq] at sent
    obtain ⟨rfl, rfl, -⟩ := sent
    refine of_same rfl fun dst out member => ?_
    obtain ⟨-, rfl⟩ := Effect.sendCell.inj (List.mem_singleton.mp member)
    exact .inl ⟨rfl, rfl⟩
  · simp only [Prod.mk.injEq] at sent
    obtain ⟨rfl, rfl, -⟩ := sent
    exact of_same rfl (by simp)

theorem sendData {node node' : Node C} {handle : CircuitHandle} {msg : List UInt8} {stream : UInt16} {effects : List Effect}
    {result : Except NetError Unit} (sent : node.sendData handle msg stream = (node', effects, result)) :
    node.Serves node' handle.cid effects := by
  simp only [Node.sendData] at sent
  split at sent
  · simp only [Prod.mk.injEq] at sent
    obtain ⟨rfl, rfl, -⟩ := sent
    exact of_same rfl (by simp)
  · exact send sent

theorem registerStream (node : Node C) (cid : UInt32) (stream : UInt16) (tx : StreamTx) :
    node.Serves (node.registerStream cid stream tx) cid [] := by
  simp only [Node.registerStream]
  split
  next fwd bwd tag next streams stored =>
    refine ⟨fun c other => Table.get_insert_of_ne _ _ other, fun c entry' here => ?_, by simp⟩
    rcases Table.get_insert_some here with ⟨rfl, rfl⟩ | ⟨-, before⟩
    · exact ⟨_, stored, fun _ => id, id⟩
    · exact ⟨entry', before, .refl entry'⟩
  next => exact of_same rfl (by simp)

theorem trans {node mid node' : Node C} {cid : UInt32} {effects : List Effect} (first : node.Serves mid cid [])
    (second : mid.Serves node' cid effects) : node.Serves node' cid effects where
  others c other := (second.others c other).trans (first.others c other)
  alike c entry' stored := by
    obtain ⟨entry, before, alike⟩ := second.alike c entry' stored
    obtain ⟨entry₀, start, alike₀⟩ := first.alike c entry before
    exact ⟨entry₀, start, fun cid under => alike.under cid (alike₀.under cid under),
      fun none => alike₀.origin (alike.origin none)⟩
  sends := second.sends

theorem echo {node node' : Node C} {handle : CircuitHandle} {tx : StreamTx} {msg : List UInt8} {effects : List Effect}
    {result : Except NetError Unit} (sent : node.echo handle tx msg = (node', effects, result)) :
    node.Serves node' handle.cid effects := by
  simp only [Node.echo] at sent
  split at sent
  · simp only [Prod.mk.injEq] at sent
    obtain ⟨rfl, rfl, -⟩ := sent
    exact of_same rfl (by simp)
  · exact (registerStream node handle.cid 1 tx).trans (send sent)

theorem handleRelay {node : Node C} (src : SocketAddr) (cell : Cell)
    (under : ∀ entry, node.circuits.get cell.cid = some entry → entry.Under cell.cid) :
    node.Serves (node.handleRelay src cell).1 cell.cid (node.handleRelay src cell).2 := by
  cases stored : node.circuits.get cell.cid with
  | none =>
    refine of_same ?_ ?_ <;> unfold Node.handleRelay <;> cases parseRelay cell.payload <;> simp [stored]
  | some entry =>
    have circuits : ∀ c, (node.handleRelay src cell).1.circuits.get c = node.circuits.get c ∨
        (c = cell.cid ∧ ∃ seq, (node.handleRelay src cell).1.circuits.get c = some (entry.withLastFwd seq)) := by
      intro c
      unfold Node.handleRelay
      cases parseRelay cell.payload with
      | error | panic => exact .inl rfl
      | ok msg =>
        simp only [stored]
        rw [Decision.get_commit stored]
        split
        next here => exact .inr ⟨here.1, msg.seq, rfl⟩
        next => exact .inl rfl
    refine ⟨fun c other => (circuits c).resolve_right fun here => other here.1, fun c entry' here => ?_, fun dst out member => ?_⟩
    · rcases circuits c with same | ⟨rfl, seq, changed⟩
      · exact ⟨entry', same ▸ here, .refl entry'⟩
      · obtain rfl := Option.some.inj (changed.symm.trans here)
        exact ⟨entry, stored, entry.alike_withLastFwd seq⟩
    · obtain ⟨-, relayed, kept⟩ := Node.handleRelay_sends stored member
      exact .inl ⟨kept _ (under entry stored), relayed⟩

end Node.Serves

def Network.Alike (net net' : Network C) : Prop :=
  ∀ addr cid entry', net'.entryAt addr cid = some entry' → ∃ entry, net.entryAt addr cid = some entry ∧ entry.Alike entry'

theorem Network.Alike.refl {net net' : Network C} (same : net'.nodes = net.nodes) : net.Alike net' :=
  fun addr cid entry' stored => ⟨entry', by simpa only [Network.entryAt, same] using stored, .refl entry'⟩

namespace Node.Serves

variable {net : Network C} {addr : SocketAddr} {node node' : Node C} {effects : List Effect} {cid : UInt32}

theorem alike_update (serves : node.Serves node' cid effects) (present : net.nodes.get addr = some node) (wire : List Packet) :
    net.Alike (net.update addr node' effects wire) := by
  intro a c entry' stored
  by_cases here : a = addr
  · subst here
    rw [Network.entryAt_of_get (Table.get_insert_self ..)] at stored
    obtain ⟨entry, before, alike⟩ := serves.alike c entry' stored
    exact ⟨entry, (Network.entryAt_of_get present c).trans before, alike⟩
  · have away : (net.update addr node' effects wire).entryAt a c = net.entryAt a c := by
      simp only [Network.entryAt, Network.update, Table.get_insert_of_ne _ _ here]
    exact ⟨entry', away ▸ stored, .refl entry'⟩

theorem leavesAlone (serves : node.Serves node' cid effects) (present : net.nodes.get addr = some node) {other : UInt32}
    (apart : other ≠ cid) {wire : List Packet} (rest : ∀ a b, onLink other a b wire = onLink other a b net.wire) :
    LeavesAlone other net (net.update addr node' effects wire) where
  entries a := by
    by_cases here : a = addr
    · subst here
      rw [Network.entryAt_of_get (Table.get_insert_self ..), Network.entryAt_of_get present, serves.others other apart]
    · simp only [Network.entryAt, Network.update, Table.get_insert_of_ne _ _ here]
  links a b := by
    have silent : onLink other a b (packetsOf addr effects) = [] := by
      refine List.filterMap_eq_nil_iff.mpr fun q member => if_neg fun both => ?_
      rcases serves.sends _ _ (of_mem_packetsOf member).2 with ⟨under, -⟩ | padding
      · exact apart (both.2.1.symm.trans under)
      · cases both.2.2.symm.trans padding
    rw [Network.update, onLink_append, silent, List.append_nil, rest]

theorem own (serves : node.Serves node' cid effects) {q : Packet} (member : q ∈ packetsOf addr effects) :
    q.Own cid ∨ q.cell.cmd = .padding :=
  serves.sends _ _ (of_mem_packetsOf member).2

end Node.Serves

theorem Node.handleRelay_relays {node : Node C} {src dst : SocketAddr} {cell out : Cell}
    (sends : .sendCell dst out ∈ (node.handleRelay src cell).2) : out.cmd = .relay := by
  cases stored : node.circuits.get cell.cid with
  | none =>
    unfold handleRelay at sends
    cases parsed : parseRelay cell.payload <;> simp [parsed, stored] at sends
  | some entry => exact (handleRelay_sends stored sends).2.1

theorem Network.Step.serves {net net' : Network C} {p : Packet} (step : Network.Step net p net')
    (under : ∀ addr cid entry, net.entryAt addr cid = some entry → entry.Under cid)
    (cell : p.cell.cmd = .relay ∨ p.cell.cmd = .padding) :
    ∃ before after, net.wire = before ++ p :: after ∧ (net' = { net with wire := before ++ after } ∨
      ∃ node node' effects, net.nodes.get p.dst = some node ∧ net' = net.update p.dst node' effects (before ++ after) ∧
        (p.cell.cmd = .padding → effects = []) ∧ (∀ q ∈ packetsOf p.dst effects, q.cell.cmd = .relay) ∧
        ∀ cid, (p.cell.cmd = .relay → cid = p.cell.cid) → node.Serves node' cid effects) := by
  cases step with
  | @deliver before after lookup wire _ =>
    refine ⟨before, after, wire, ?_⟩
    unfold Network.receive
    cases present : net.nodes.get p.dst with
    | none => exact .inl rfl
    | some node =>
      refine .inr ⟨node, _, _, rfl, rfl, fun padding => by simp only [padding], fun q member => ?_, fun cid same => ?_⟩
      · have sends := (of_mem_packetsOf member).2
        rcases cell with relay | padding
        · simp only [relay] at sends
          exact Node.handleRelay_relays sends
        · simp [padding] at sends
      rcases cell with relay | padding
      · simp only [relay]
        exact same relay ▸ Node.Serves.handleRelay p.src p.cell fun entry stored =>
          under p.dst _ entry ((Network.entryAt_of_get present _).trans stored)
      · simp only [padding]
        exact .of_same rfl (by simp)

theorem onLink_arrived {cid : UInt32} {p : Packet} (foreign : ¬ p.Own cid) (before after : List Packet) (a b : SocketAddr) :
    onLink cid a b (before ++ after) = onLink cid a b (before ++ p :: after) := by
  rw [onLink_append, onLink_append, onLink_cons, if_neg fun both => foreign both.2, List.nil_append]

/-- A cell that is not of a circuit leaves it alone. -/
theorem Network.Step.foreign {net net' : Network C} {p : Packet} (step : Network.Step net p net')
    (under : ∀ addr cid entry, net.entryAt addr cid = some entry → entry.Under cid)
    (cell : p.cell.cmd = .relay ∨ p.cell.cmd = .padding) {cid : UInt32} (foreign : ¬ p.Own cid) : LeavesAlone cid net net' := by
  obtain ⟨before, after, wire, rfl | ⟨node, node', effects, present, rfl, -, -, serves⟩⟩ := step.serves under cell
  · exact ⟨fun addr => rfl, fun a b => by rw [wire, onLink_arrived foreign]⟩
  · have rest (a b : SocketAddr) : onLink cid a b (before ++ after) = onLink cid a b net.wire := by
      rw [wire, onLink_arrived foreign]
    rcases cell with relay | padding
    · exact (serves p.cell.cid fun _ => rfl).leavesAlone present (fun same => foreign ⟨same.symm, relay⟩) rest
    · have other : cid ≠ cid + 1 := by simp
      exact (serves (cid + 1) fun relay => absurd (padding.symm.trans relay) nofun).leavesAlone present other rest

theorem relayDecide_delivers {entry : CircuitEntry} {src : SocketAddr} {msg : RelayMsg} {tx : StreamTx} {data : List UInt8}
    (hands : .deliver tx data ∈ (relayDecide C entry src msg).effects) : entry.lastFwd? = none := by
  cases entry with
  | origin => rfl
  | relay | terminal =>
    revert hands
    simp only [relayDecide]
    repeat' split
    all_goals simp [Decision.effects]

theorem Node.handleRelay_delivers {node : Node C} {src : SocketAddr} {cell : Cell} {tx : StreamTx} {data : List UInt8}
    (hands : .deliver tx data ∈ (node.handleRelay src cell).2) :
    ∃ entry, node.circuits.get cell.cid = some entry ∧ entry.lastFwd? = none := by
  unfold handleRelay at hands
  cases parsed : parseRelay cell.payload with
  | error | panic => simp [parsed] at hands
  | ok msg =>
    cases stored : node.circuits.get cell.cid with
    | none => simp [parsed, stored] at hands
    | some entry =>
      simp only [parsed, stored] at hands
      exact ⟨entry, rfl, relayDecide_delivers hands⟩

theorem of_mem_handed {addr : SocketAddr} {effects : List Effect} {data : List UInt8}
    (member : data ∈ handed addr (noticesOf addr effects)) : ∃ tx, .deliver tx data ∈ effects := by
  obtain ⟨⟨at_addr, effect⟩, notice, made⟩ := List.mem_filterMap.mp member
  obtain ⟨effect', sent, kept⟩ := List.mem_filterMap.mp notice
  cases effect' with
  | deliver tx data' =>
    obtain ⟨rfl, rfl⟩ := Prod.mk.inj (Option.some.inj kept)
    simp only [if_true, Option.some.injEq] at made
    exact ⟨tx, made ▸ sent⟩
  | resolve =>
    obtain ⟨rfl, rfl⟩ := Prod.mk.inj (Option.some.inj kept)
    cases made
  | sendCell | ensurePeerLink => cases kept

theorem handed_origin {p : Packet} {net net' : Network C} (step : Network.Step net p net')
    (cell : p.cell.cmd = .relay ∨ p.cell.cmd = .padding)
    (some : handed p.dst (net'.notices.drop net.notices.length) ≠ []) :
    ∃ entry, net.entryAt p.dst p.cell.cid = .some entry ∧ entry.lastFwd? = none := by
  obtain ⟨data, heard⟩ := List.exists_mem_of_ne_nil _ some
  cases step with
  | deliver lookup wire first =>
    unfold Network.receive at heard
    cases present : net.nodes.get p.dst with
    | none => simp [present, handed] at heard
    | some node =>
      simp only [present, Network.update, List.drop_left] at heard
      obtain ⟨tx, hands⟩ := of_mem_handed heard
      rcases cell with relay | padding
      · rw [Node.handleCell, relay] at hands
        obtain ⟨entry, stored, origin⟩ := Node.handleRelay_delivers hands
        exact ⟨entry, (Network.entryAt_of_get present _).trans stored, origin⟩
      · rw [Node.handleCell, padding] at hands
        cases hands

def Ours (circuits : List OpenCircuit) (p : Packet) : Prop := (∃ c ∈ circuits, p.Own c.handle.cid) ∨ p.cell.cmd = .padding

theorem Ours.cell {circuits : List OpenCircuit} {p : Packet} (ours : Ours circuits p) :
    p.cell.cmd = .relay ∨ p.cell.cmd = .padding := ours.imp_left fun ⟨_, _, own⟩ => own.2

namespace Traffic

theorem note_self {α : Type} (log : Log α) (addr : SocketAddr) (cid : UInt32) (more : List α) :
    log.note addr cid more addr cid = log addr cid ++ more := if_pos ⟨rfl, rfl⟩

theorem note_other {α : Type} (log : Log α) {addr a : SocketAddr} {cid c : UInt32} (more : List α)
    (other : ¬ (a = addr ∧ c = cid)) :
    log.note addr cid more a c = log a c := if_neg other

structure Sound (circuits : List OpenCircuit) (s : Traffic C) : Prop where
  going : ∀ c ∈ circuits, (s.talk c).Going c.originAddr c.handle c.first c.rest
  under : ∀ addr cid entry, s.net.entryAt addr cid = some entry → entry.Under cid
  listed : ∀ addr cid entry, s.net.entryAt addr cid = some entry → entry.lastFwd? = none →
    ∃ c ∈ circuits, c.originAddr = addr ∧ c.handle.cid = cid
  cells : ∀ p ∈ s.net.wire, Ours circuits p

variable {circuits : List OpenCircuit} {s t : Traffic C} {event : TrafficEvent}

theorem Sound.arriving (sound : s.Sound circuits) {p : Packet} {net' : Network C} (step : Network.Step s.net p net') :
    Ours circuits p := by
  obtain ⟨before, after, wire, -⟩ := step.split
  exact sound.cells p (by simp [wire])

theorem Sound.picked (sound : s.Sound circuits) {addr : SocketAddr} {node : Node C} (present : s.net.nodes.get addr = some node)
    {order : List UInt32} {handle : CircuitHandle} (picked : node.pickOrigin order = some handle) :
    ∃ c ∈ circuits, c.originAddr = addr ∧ c.handle = handle := by
  obtain ⟨next, streams, stored⟩ := Node.pickOrigin_some picked
  have entry := (Network.entryAt_of_get present handle.cid).trans stored
  obtain ⟨c, member, rfl, cid⟩ := sound.listed addr handle.cid _ entry rfl
  obtain ⟨streams', entry', -⟩ := (sound.going c member).entry
  rw [talk, cid, entry] at entry'
  simp only [Option.some.injEq, CircuitEntry.origin.injEq] at entry'
  obtain ⟨fwd, bwd, tag, -⟩ := entry'
  have whole : c.handle = ⟨c.handle.cid, c.handle.fwd, c.handle.bwd, c.handle.tag⟩ := rfl
  exact ⟨c, member, rfl, by rw [whole, cid, ← fwd, ← bwd, ← tag]⟩

theorem Step.acts (sound : s.Sound circuits) (step : Step circuits s event t) :
    (∃ d ∈ circuits, ∃ (node node' : Node C) (effects : List Effect) (said : TalkEvent),
      s.net.nodes.get d.originAddr = some node ∧ node.Serves node' d.handle.cid effects ∧
      t.net = s.net.update d.originAddr node' effects s.net.wire ∧
      Talk.Step d.originAddr d.handle (s.talk d) said (t.talk d) ∧
      ∀ c : OpenCircuit, c.handle.cid ≠ d.handle.cid → t.talk c = { s.talk c with net := t.net }) ∨
    (∃ (addr : SocketAddr) (node : Node C) (rng : C.Rng) (effects : List Effect), s.net.nodes.get addr = some node ∧
      (∀ dst out, .sendCell dst out ∈ effects → out.cmd = .padding) ∧
      t.net = s.net.update addr { node with rng } effects s.net.wire ∧ ∀ c, t.talk c = { s.talk c with net := t.net }) ∨
    ∃ p, event = .arrive p := by
  cases step with
  | @echo c node node' effects tx msg member present asked =>
    refine .inl ⟨c, member, node, node', effects, .echo tx msg, present, .echo asked, rfl, ?_, fun d other => ?_⟩
    · simp only [talk, note_self]
      exact .echo present asked
    · simp only [talk, note_other _ _ fun both => other both.2]
  | @sendData c node node' effects msg stream member present asked =>
    refine .inl ⟨c, member, node, node', effects, .sendData msg stream, present, .sendData asked, rfl, ?_, fun d other => ?_⟩
    · simp only [talk, note_self]
      exact .sendData present asked
    · simp only [talk, note_other _ _ fun both => other both.2]
  | @padding addr node peers i effects stats rng present padded =>
    refine .inr (.inl ⟨addr, node, rng, effects, present, fun dst out member => ?_, rfl, fun c => rfl⟩)
    unfold coverPadding at padded
    split at padded
    · obtain ⟨rfl, -⟩ := Prod.mk.inj padded
      cases member
    · obtain ⟨rfl, -⟩ := Prod.mk.inj padded
      simp only [List.mem_cons, reduceCtorEq, List.not_mem_nil, or_false, false_or, Effect.sendCell.injEq] at member
      rw [member.2, paddingCell]
  | @drop addr node node' order handle effects stats present picked dropped =>
    obtain ⟨c, member, rfl, rfl⟩ := sound.picked present picked
    rw [Node.coverDrop_eq picked] at dropped
    simp only [Prod.mk.injEq] at dropped
    obtain ⟨rfl, rfl, -⟩ := dropped
    obtain ⟨next, streams, stored⟩ := Node.pickOrigin_some picked
    have asked : node.sendData c.handle dropMsg 0 =
        ((node.sendData c.handle dropMsg 0).1, (node.sendData c.handle dropMsg 0).2.1, .ok ()) := by
      rw [Node.sendData, if_neg (by decide), Node.send]
      simp only [stored]
    refine .inl ⟨c, member, node, _, _, .sendData dropMsg 0, present, .sendData asked, rfl, ?_, fun d other => ?_⟩
    · simp only [talk, note_self]
      exact .sendData present asked
    · simp only [talk, note_other _ _ fun both => other both.2]
  | arrive => exact .inr (.inr ⟨_, rfl⟩)

theorem Sound.alike (sound : s.Sound circuits) (alike : s.net.Alike t.net)
    (going : ∀ c ∈ circuits, (t.talk c).Going c.originAddr c.handle c.first c.rest)
    (cells : ∀ p ∈ t.net.wire, Ours circuits p) : t.Sound circuits where
  going := going
  under addr cid entry' stored := by
    obtain ⟨entry, before, alike⟩ := alike addr cid entry' stored
    exact alike.under cid (sound.under addr cid entry before)
  listed addr cid entry' stored origin := by
    obtain ⟨entry, before, alike⟩ := alike addr cid entry' stored
    exact sound.listed addr cid entry before (alike.origin origin)
  cells := cells

/-- For a circuit, the arrival of a cell is one of its own or happens elsewhere. -/
theorem Sound.talk_arrive (sound : s.Sound circuits) {p : Packet} (arrived : Step circuits s (.arrive p) t) (c : OpenCircuit) :
    ∃ said, Talk.Step c.originAddr c.handle (s.talk c) said (t.talk c) := by
  cases arrived with
  | @arrive _ net' step =>
    have cell := (sound.arriving step).cell
    by_cases own : p.Own c.handle.cid
    · refine ⟨.arrive p, ?_⟩
      have heard : s.heard.note p.dst p.cell.cid (handed p.dst (net'.notices.drop s.net.notices.length)) c.originAddr c.handle.cid =
          s.heard c.originAddr c.handle.cid ++ handed c.originAddr (net'.notices.drop s.net.notices.length) := by
        by_cases home : p.dst = c.originAddr
        · rw [home, own.1, note_self]
        · rw [Talk.handed_elsewhere home step, List.append_nil, note_other _ _ fun both => home both.1.symm]
      simp only [talk, heard, if_pos own]
      exact .arrive own step
    · refine ⟨.elsewhere, ?_⟩
      have alone := step.foreign sound.under cell own
      have heard : s.heard.note p.dst p.cell.cid (handed p.dst (net'.notices.drop s.net.notices.length)) c.originAddr c.handle.cid =
          s.heard c.originAddr c.handle.cid := by
        by_cases here : c.originAddr = p.dst ∧ c.handle.cid = p.cell.cid
        -- A PADDING cell under the circuit's cid reaches no stream.
        · have padding : p.cell.cmd = .padding := cell.resolve_left fun relay => own ⟨here.2.symm, relay⟩
          have silent : net'.notices.drop s.net.notices.length = [] := by
            obtain ⟨_, _, -, rfl | ⟨node, node', effects, -, rfl, none, -, -⟩⟩ := step.serves sound.under cell
            · simp
            · simp [Network.update, none padding]
          rw [here.1, here.2, note_self, silent]
          exact List.append_nil _
        · exact note_other _ _ here
      simp only [talk, heard, if_neg own]
      exact .elsewhere alone

theorem Sound.step (laws : C.Lawful) (uniform : ∀ c ∈ circuits, Uniform c.originAddr c.handle c.first c.rest)
    (cids : ∀ c ∈ circuits, ∀ d ∈ circuits, c.handle.cid = d.handle.cid → c = d) (sound : s.Sound circuits)
    (step : Step circuits s event t) : t.Sound circuits := by
  rcases step.acts sound with ⟨d, listed, node, node', effects, said, present, serves, net, asked, others⟩ |
    ⟨addr, node, rng, effects, present, pads, net, same⟩ | ⟨p, rfl⟩
  · refine sound.alike (net ▸ serves.alike_update present _) (fun c member => ?_) fun q member => ?_
    -- On its own circuit it is a step of the talk, on every other one nothing has moved.
    · by_cases cid : c.handle.cid = d.handle.cid
      · obtain rfl := cids c member d listed cid
        exact (sound.going c member).step laws (uniform c member) asked
      · have alone := serves.leavesAlone present cid (fun _ _ => rfl)
        rw [← net] at alone
        rw [others c cid]
        exact (sound.going c member).step laws (uniform c member) (.elsewhere alone)
    · rw [net] at member
      refine (List.mem_append.mp member).elim (sound.cells q) fun sent => ?_
      exact (serves.own sent).imp_left fun own => ⟨d, listed, own⟩
  · have serves (cid : UInt32) : node.Serves { node with rng } cid effects :=
      .of_same rfl fun dst out member => .inr (pads dst out member)
    refine sound.alike (net ▸ (serves 0).alike_update present _) (fun c member => ?_) fun q member => ?_
    · have other : c.handle.cid ≠ c.handle.cid + 1 := by simp
      have alone := (serves _).leavesAlone present other (fun _ _ => rfl)
      rw [← net] at alone
      rw [same c]
      exact (sound.going c member).step laws (uniform c member) (.elsewhere alone)
    · rw [net] at member
      exact (List.mem_append.mp member).elim (sound.cells q) fun sent => .inr (pads _ _ (of_mem_packetsOf sent).2)
  · have talks := sound.talk_arrive step
    cases step with
    | @arrive _ net' step =>
      have ours := sound.arriving step
      have going (c : OpenCircuit) (member : c ∈ circuits) :=
        (talks c).elim fun _ talk => (sound.going c member).step laws (uniform c member) talk
      obtain ⟨before, after, wire, rfl | ⟨node, node', effects, present, rfl, none, -, serves⟩⟩ :=
        step.serves sound.under ours.cell
      · refine sound.alike (.refl rfl) going fun q member => sound.cells q ?_
        rw [wire]
        simp only [List.mem_append, List.mem_cons] at member ⊢
        tauto
      · have serves := serves p.cell.cid fun _ => rfl
        refine sound.alike (serves.alike_update present _) going fun q member => ?_
        rcases List.mem_append.mp member with rest | sent
        · refine sound.cells q ?_
          rw [wire]
          simp only [List.mem_append, List.mem_cons] at rest ⊢
          tauto
        · rcases ours with ⟨c, listed, own⟩ | padding
          · exact (serves.own sent).imp_left fun own' => ⟨c, listed, own.1 ▸ own'⟩
          · rw [none padding] at sent
            cases sent

/-- Where there is no circuit, nothing is heard. -/
theorem Sound.silent (sound : s.Sound circuits) (step : Step circuits s event t) {addr : SocketAddr} {cid : UInt32}
    (none : ∀ c ∈ circuits, ¬ (c.originAddr = addr ∧ c.handle.cid = cid)) (silent : s.heard addr cid = []) :
    t.heard addr cid = [] := by
  cases step with
  | echo | sendData | padding | drop => exact silent
  | @arrive p net' step =>
    have cell := (sound.arriving step).cell
    by_cases here : addr = p.dst ∧ cid = p.cell.cid
    · obtain ⟨rfl, rfl⟩ := here
      refine (note_self ..).trans ?_
      rw [silent, List.nil_append]
      refine of_not_not fun some => ?_
      obtain ⟨entry, stored, origin⟩ := handed_origin step cell some
      obtain ⟨c, member, same⟩ := sound.listed _ _ entry stored origin
      exact none c member same
    · exact (note_other _ _ here).trans silent

def start (net : Network C) : Traffic C := ⟨net, .empty, fun _ _ => [], fun _ _ => [], fun _ => 0⟩

/-- The steps that the cells under way can still make. -/
def remaining (circuits : List OpenCircuit) (s : Traffic C) : Nat :=
  (circuits.map fun c => 2 * (c.first :: c.rest).length * (s.talk c).said.length - (s.talk c).arrivals).sum +
    s.net.wire.countP fun p => p.cell.cmd = .padding

def Arrival (_ : Traffic C) (event : TrafficEvent) (_ : Traffic C) : Prop := ∃ p, event = .arrive p

theorem Sound.remaining_lt (sound : s.Sound circuits) (sound' : t.Sound circuits) {p : Packet}
    (step : Step circuits s (.arrive p) t) :
    t.remaining circuits < s.remaining circuits := by
  cases step with
  | @arrive _ net' step =>
    have ours := sound.arriving step
    have less (c : OpenCircuit) : s.arrivals c.handle.cid ≤ if p.Own c.handle.cid then s.arrivals c.handle.cid + 1
        else s.arrivals c.handle.cid := by
      split <;> omega
    obtain ⟨before, after, wire, rest⟩ := step.serves sound.under ours.cell
    have count : net'.wire.countP (fun p => p.cell.cmd = .padding) = (before ++ after).countP fun p => p.cell.cmd = .padding := by
      rcases rest with rfl | ⟨node, node', effects, present, rfl, none, relays, serves⟩
      · rfl
      · rw [Network.update, List.countP_append, Nat.add_eq_left, List.countP_eq_zero]
        intro q member
        simp [relays q member]
    rw [remaining, remaining, count, wire, List.countP_append, List.countP_append, List.countP_cons]
    -- One arrival more on its circuit, and none less on the others.
    rcases ours with ⟨c, member, own⟩ | padding
    · refine Nat.add_lt_add_of_lt_of_le (List.sum_lt_sum _ _ (fun d _ => ?_) ⟨c, member, ?_⟩) (by omega)
      · exact Nat.sub_le_sub_left (less d) _
      · obtain ⟨back, load, -, -, few⟩ := (sound'.going c member).flows
        simp only [talk, if_pos own] at few ⊢
        omega
    · have apart (cid : UInt32) : ¬ p.Own cid := fun own => by cases own.2.symm.trans padding
      simp only [talk, apart, if_false, padding, decide_true, if_true]
      omega

abbrev Arriving (circuits : List OpenCircuit) : Traffic C → TrafficEvent → Traffic C → Prop := Such (Step circuits) Arrival

theorem Sound.drained (laws : C.Lawful) (uniform : ∀ c ∈ circuits, Uniform c.originAddr c.handle c.first c.rest)
    (cids : ∀ c ∈ circuits, ∀ d ∈ circuits, c.handle.cid = d.handle.cid → c = d) (sound : s.Sound circuits) :
    ∃ events t, Run (Arriving circuits) s events t ∧ t.net.wire = [] := by
  induction left : s.remaining circuits using Nat.strong_induction_on generalizing s with
  | _ n ih =>
    cases wire : s.net.wire with
    | nil => exact ⟨[], s, .nil s, wire⟩
    | cons p later =>
      have split : s.net.wire = [] ++ p :: later := wire
      have step : Step circuits s (.arrive p) _ := .arrive (.deliver (fun _ => .error .timeout) split (by simp))
      have sound' := sound.step laws uniform cids step
      obtain ⟨events, t, run, quiet⟩ := ih _ (left ▸ sound.remaining_lt sound' step) sound' rfl
      exact ⟨_, t, run.cons ⟨step, p, rfl⟩, quiet⟩

end Traffic

namespace Transparent

open Nbf.Crypto.Transparent

def sideHop : Hop := ⟨localhost 9101, 2, .replicate 32 5, .replicate 32 6, 0⟩

def sideHandle : CircuitHandle := ⟨2, [.replicate 32 5], [.replicate 32 6], .zeros 16⟩

def sharedRelay : Table UInt32 CircuitEntry :=
  (Table.empty.insert 1 (nearHop.entry (.zeros 16) (localhost 9000) (some (farHop 1)))).insert 2
    (.origin sideHandle.fwd sideHandle.bwd sideHandle.tag ⟨2, localhost 9101⟩ .empty)

def sharedTerminal : Table UInt32 CircuitEntry :=
  (Table.empty.insert 1 ((farHop 1).entry (.zeros 16) (localhost 9100) none)).insert 2
    (sideHop.entry (.zeros 16) (localhost 9100) none)

def sharedNet : Network crates where
  nodes := ((Table.empty.insert (localhost 9000) echoOrigin).insert (localhost 9100) { node 1 1 with circuits := sharedRelay }).insert
    (localhost 9101) { node 20 0 with circuits := sharedTerminal }
  wire := []
  notices := []

def mainCircuit : OpenCircuit := ⟨localhost 9000, echoHandle, nearHop, [farHop 1]⟩

def sideCircuit : OpenCircuit := ⟨localhost 9100, sideHandle, sideHop, []⟩

def sharedCircuits : List OpenCircuit := [mainCircuit, sideCircuit]

theorem shared_origin : sharedNet.nodes.get (localhost 9000) = some echoOrigin :=
  (Table.get_insert_of_ne _ _ (localhost_ne (by decide))).trans
    ((Table.get_insert_of_ne _ _ (localhost_ne (by decide))).trans (Table.get_insert_self ..))

theorem shared_relay : sharedNet.nodes.get (localhost 9100) = some { node 1 1 with circuits := sharedRelay } :=
  (Table.get_insert_of_ne _ _ (localhost_ne (by decide))).trans (Table.get_insert_self ..)

theorem shared_terminal : sharedNet.nodes.get (localhost 9101) = some { node 20 0 with circuits := sharedTerminal } :=
  Table.get_insert_self ..

def sharedEvents : List TrafficEvent :=
  [.echo mainCircuit 7 [104, 105], .drop (localhost 9000) [1],
    .padding (localhost 9101) [(.zeros 20, localhost 9000, .zeros 32)] 0, .echo sideCircuit 8 [33]]

theorem shared_sent : ∃ s : Traffic crates, Run (Traffic.Step sharedCircuits) (Traffic.start sharedNet) sharedEvents s ∧
    (s.talk mainCircuit).said = [⟨64, .echo, 1, [104, 105]⟩, ⟨65, .data, 0, dropMsg⟩] ∧
    (s.talk sideCircuit).said = [⟨64, .echo, 1, [33]⟩] ∧ s.heard (localhost 9000) 1 = [] := by
  have first : Traffic.Step sharedCircuits (Traffic.start sharedNet) (.echo mainCircuit 7 [104, 105]) _ :=
    .echo List.mem_cons_self shared_origin rfl
  have second : Run (Traffic.Step sharedCircuits) (Traffic.start sharedNet) (sharedEvents.take 2) _ :=
    (Run.single first).snoc (.drop (Table.get_insert_self ..) rfl rfl)
  have aside {p q : UInt16} (apart : p ≠ q) (n : Node crates) (t : Table SocketAddr (Node crates)) :
      (t.insert (localhost q) n).get (localhost p) = t.get (localhost p) := Table.get_insert_of_ne _ _ (localhost_ne apart)
  have third : Run (Traffic.Step sharedCircuits) (Traffic.start sharedNet) (sharedEvents.take 3) _ :=
    second.snoc (.padding (3 : UInt8) ((aside (by decide) _ _).trans ((aside (by decide) _ _).trans shared_terminal)) rfl)
  have fourth : Run (Traffic.Step sharedCircuits) (Traffic.start sharedNet) sharedEvents _ :=
    third.snoc (.echo (List.mem_cons_of_mem _ List.mem_cons_self) ((aside (by decide) _ _).trans
      ((aside (by decide) _ _).trans ((aside (by decide) _ _).trans shared_relay))) rfl)
  exact ⟨_, fourth, rfl, rfl, rfl⟩

end Transparent
end Nbf.Net

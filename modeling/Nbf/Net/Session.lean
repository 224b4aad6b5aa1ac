import Nbf.Net.Echo
import Nbf.Net.Neighbours
import Nbf.Net.Overtaking

/-! Everything an origin says on one circuit, and what comes back.

All entries of the circuit lie under the origin's cid. Echoes and data go out in
any number while others are still on their way, each drawing its number and sending
its cell in one step, and the rest of the network does what it likes, as long as it
leaves this cid alone. Cells of one link are handled one at a time, in order.
-/

set_option autoImplicit false

namespace Nbf.Net

open Nbf.Library Nbf.Crypto

variable {C : Crates}

/-! ## The cells of a circuit on one link -/

def Packet.Own (cid : UInt32) (p : Packet) : Prop := p.cell.cid = cid ∧ p.cell.cmd = .relay

instance (cid : UInt32) (p : Packet) : Decidable (p.Own cid) := inferInstanceAs (Decidable (_ ∧ _))

/-- The RELAY cells under `cid` on the link from `a` to `b`, oldest first. -/
def onLink (cid : UInt32) (a b : SocketAddr) (wire : List Packet) : List Cell :=
  wire.filterMap fun p => if (p.src = a ∧ p.dst = b) ∧ p.Own cid then some p.cell else none

theorem onLink_append (cid : UInt32) (a b : SocketAddr) (wire wire' : List Packet) :
    onLink cid a b (wire ++ wire') = onLink cid a b wire ++ onLink cid a b wire' := List.filterMap_append

theorem onLink_cons (cid : UInt32) (a b : SocketAddr) (p : Packet) (wire : List Packet) :
    onLink cid a b (p :: wire) =
      (if (p.src = a ∧ p.dst = b) ∧ p.Own cid then [p.cell] else []) ++ onLink cid a b wire := by
  rw [onLink, onLink, List.filterMap_cons]
  by_cases here : (p.src = a ∧ p.dst = b) ∧ p.Own cid
  · simp only [if_pos here, List.singleton_append]
  · simp only [if_neg here, List.nil_append]

theorem onLink_remove {cid : UInt32} {p : Packet} (own : p.Own cid) {before : List Packet}
    (first : ∀ q ∈ before, ¬ (q.src = p.src ∧ q.dst = p.dst)) (after : List Packet) (a b : SocketAddr) :
    onLink cid a b (before ++ p :: after) =
      (if p.src = a ∧ p.dst = b then [p.cell] else []) ++ onLink cid a b (before ++ after) := by
  rw [onLink_append, onLink_append, onLink_cons]
  by_cases same : p.src = a ∧ p.dst = b
  · obtain ⟨rfl, rfl⟩ := same
    have none : onLink cid p.src p.dst before = [] :=
      List.filterMap_eq_nil_iff.mpr fun q member => if_neg fun both => first q member both.1
    rw [none, if_pos ⟨⟨rfl, rfl⟩, own⟩, if_pos ⟨rfl, rfl⟩, List.nil_append, List.nil_append]
  · rw [if_neg same, if_neg fun both => same both.1, List.nil_append, List.nil_append]

/-- One cell arrives at `b` from `a`, and `b` sends `out` in turn. -/
structure Moved (net net' : Network C) (cid : UInt32) (a b : SocketAddr) (cell : Cell) (out : SocketAddr → List Cell) : Prop where
  arrived : onLink cid a b net.wire = cell :: onLink cid a b net'.wire
  sent : ∀ y, onLink cid b y net'.wire = onLink cid b y net.wire ++ out y
  links : ∀ x y, x ≠ b → (x, y) ≠ (a, b) → onLink cid x y net'.wire = onLink cid x y net.wire
  entries : ∀ x, x ≠ b → net'.entryAt x cid = net.entryAt x cid

/-! ## Where the cells of a circuit may be -/

def Adjacent : SocketAddr → List Hop → SocketAddr → SocketAddr → Prop
  | _, [], _, _ => False
  | prev, hop :: rest, a, b => (a = prev ∧ b = hop.addr) ∨ (a = hop.addr ∧ b = prev) ∨ Adjacent hop.addr rest a b

def chain (prev : SocketAddr) (hops : List Hop) : List SocketAddr := prev :: hops.map Hop.addr

theorem Adjacent.mem {prev : SocketAddr} {hops : List Hop} {a b : SocketAddr} (adjacent : Adjacent prev hops a b) :
    a ∈ chain prev hops ∧ b ∈ chain prev hops := by
  induction hops generalizing prev with
  | nil => exact adjacent.elim
  | cons hop rest ih =>
    rcases adjacent with ⟨rfl, rfl⟩ | ⟨rfl, rfl⟩ | later
    · simp [chain]
    · simp [chain]
    · obtain ⟨left, right⟩ := ih later
      exact ⟨List.mem_cons_of_mem _ left, List.mem_cons_of_mem _ right⟩

theorem Adjacent.ne {prev : SocketAddr} {hops : List Hop} {a b : SocketAddr} (adjacent : Adjacent prev hops a b)
    (distinct : (chain prev hops).Nodup) : a ≠ b := by
  induction hops generalizing prev with
  | nil => exact adjacent.elim
  | cons hop rest ih =>
    obtain ⟨apart, later⟩ := List.nodup_cons.mp distinct
    have ne : prev ≠ hop.addr := fun same => apart (same ▸ List.mem_cons_self)
    rcases adjacent with ⟨rfl, rfl⟩ | ⟨rfl, rfl⟩ | behind
    · exact ne
    · exact ne.symm
    · exact ih behind later

def Ask.reply (C : Crates) (cid : UInt32) (keys : List (Octets 32)) (tag : Octets 16) (ask : Ask) : Cell :=
  ⟨cid, .relay, 0, relayPayload ⟨ask.seq, ask.rcmd, ask.stream, replyOnion C keys tag ask.seq ask.msg⟩⟩

def echoes (asks : List Ask) : List Ask := asks.filter fun ask => ask.rcmd = .echo

@[simp] theorem echoes_append (asks asks' : List Ask) : echoes (asks ++ asks') = echoes asks ++ echoes asks' :=
  List.filter_append ..

/-- Where everything is that `prev` has sent to the first of the hops, `sent`, and what has come back to it, `back`:
each hop has passed on what climbs of what it has taken, and the terminal answers the echoes. A reply to `prev` makes
`depth` steps to the origin, and all that is on its way makes `load` steps at most. -/
inductive Flows (net : Network C) (cid : UInt32) (tag : Octets 16) :
    (depth : Nat) → SocketAddr → List Hop → (sent back : List Ask) → (load : Nat) → Prop where
  | terminal (depth : Nat) (prev : SocketAddr) (sent : List Ask) : Flows net cid tag depth prev [] sent (echoes sent) 0
  | hop {depth load load' : Nat} {prev : SocketAddr} {hop : Hop} {rest : List Hop} {back : List Ask}
      (taken waiting late : List Ask) (mark : UInt32) :
      onLink cid prev hop.addr net.wire = waiting.map (Ask.cell C cid ((hop :: rest).map Hop.kFwd) tag) →
      net.entryAt hop.addr cid = some ((hop.peeled mark).entry tag prev rest.head?) → mark.toNat = summit Ask.number 0 taken →
      onLink cid hop.addr prev net.wire = late.map (Ask.reply C cid ((hop :: rest).map Hop.kBwd) tag) →
      Flows net cid tag (depth + 1) hop.addr rest (climb Ask.number 0 taken) (back ++ late) load →
      load' = (depth + 1 + 2 * rest.length) * waiting.length + depth * late.length + load →
      Flows net cid tag depth prev (hop :: rest) (taken ++ waiting) back load'

namespace Flows

variable {net net' : Network C} {cid : UInt32} {tag : Octets 16} {prev : SocketAddr} {hop : Hop} {rest hops : List Hop}
  {sent back : List Ask} {depth load : Nat}

theorem at_terminal (flows : Flows net cid tag depth prev [] sent back load) : back = echoes sent := by
  cases flows
  rfl

theorem back_sublist (flows : Flows net cid tag depth prev hops sent back load) : back.Sublist (echoes sent) := by
  induction flows with
  | terminal => exact List.Sublist.refl _
  | hop taken waiting late mark _ _ _ _ _ _ ih =>
    rw [echoes_append]
    have passed : (echoes (climb Ask.number 0 taken)).Sublist (echoes taken) := (climb_sublist 0 taken).filter _
    exact (List.sublist_append_left ..).trans ((ih.trans passed).trans (List.sublist_append_left ..))

/-- The replies come back in the order of their asks. -/
theorem back_prefix (flows : Flows net cid tag depth prev (hop :: rest) sent back load) :
    back <+: echoes (climb Ask.number 0 sent) := by
  induction rest generalizing prev hop sent back depth load with
  | nil =>
    cases flows with
    | hop taken waiting late _ _ _ _ _ onward _ =>
      rw [climb_append, echoes_append, ← onward.at_terminal, List.append_assoc]
      exact List.prefix_append ..
  | cons next rest ih =>
    cases flows with
    | hop taken waiting late _ _ _ _ _ onward _ =>
      have sofar := ih onward
      rw [climb_climb] at sofar
      rw [climb_append, echoes_append]
      exact (List.prefix_append ..).trans (sofar.trans (List.prefix_append ..))

theorem frame (flows : Flows net cid tag depth prev hops sent back load)
    (links : ∀ a b, Adjacent prev hops a b → onLink cid a b net'.wire = onLink cid a b net.wire)
    (entries : ∀ hop ∈ hops, net'.entryAt hop.addr cid = net.entryAt hop.addr cid) :
    Flows net' cid tag depth prev hops sent back load := by
  induction flows with
  | terminal depth prev sent => exact .terminal depth prev sent
  | hop taken waiting late mark out entry climbed back _ sum ih =>
    refine .hop taken waiting late mark ?_ ?_ climbed ?_ (ih ?_ ?_) sum
    · rw [links _ _ (.inl ⟨rfl, rfl⟩), out]
    · rw [entries _ List.mem_cons_self, entry]
    · rw [links _ _ (.inr (.inl ⟨rfl, rfl⟩)), back]
    · exact fun a b later => links a b (.inr (.inr later))
    · exact fun hop member => entries hop (List.mem_cons_of_mem _ member)

theorem push (flows : Flows net cid tag depth prev (hop :: rest) sent back load) (ask : Ask)
    (out : onLink cid prev hop.addr net'.wire =
      onLink cid prev hop.addr net.wire ++ [Ask.cell C cid ((hop :: rest).map Hop.kFwd) tag ask])
    (links : ∀ a b, Adjacent prev (hop :: rest) a b → (a, b) ≠ (prev, hop.addr) →
      onLink cid a b net'.wire = onLink cid a b net.wire)
    (entries : ∀ h ∈ hop :: rest, net'.entryAt h.addr cid = net.entryAt h.addr cid)
    (distinct : (chain prev (hop :: rest)).Nodup) :
    Flows net' cid tag depth prev (hop :: rest) (sent ++ [ask]) back (load + (depth + 1 + 2 * rest.length)) := by
  have apart : prev ∉ chain hop.addr rest := (List.nodup_cons.mp distinct).1
  cases flows with
  | hop taken waiting late mark queue entry climbed backward onward sum =>
    rw [List.append_assoc]
    refine .hop taken (waiting ++ [ask]) late mark ?_ ?_ climbed ?_ (onward.frame ?_ ?_) ?_
    · rw [out, queue, List.map_append, List.map_singleton]
    · rw [entries _ List.mem_cons_self, entry]
    · rw [links _ _ (.inr (.inl ⟨rfl, rfl⟩)) fun same => apart ?_, backward]
      rw [← (Prod.mk.inj same).1]
      exact List.mem_cons_self
    · intro a b later
      refine links a b (.inr (.inr later)) fun same => apart ?_
      rw [← (Prod.mk.inj same).1]
      exact later.mem.1
    · exact fun h member => entries h (List.mem_cons_of_mem _ member)
    · rw [sum, List.length_append, List.length_singleton, Nat.mul_add]
      omega

theorem pop (flows : Flows net cid tag depth prev (hop :: rest) sent back load) {cell : Cell} {more : List Cell}
    (arriving : onLink cid hop.addr prev net.wire = cell :: more) (distinct : (chain prev (hop :: rest)).Nodup) :
    ∃ ask ∈ sent, cell = Ask.reply C cid ((hop :: rest).map Hop.kBwd) tag ask ∧
      ∀ net' : Network C, onLink cid hop.addr prev net'.wire = more →
        (∀ a b, Adjacent prev (hop :: rest) a b → (a, b) ≠ (hop.addr, prev) →
          onLink cid a b net'.wire = onLink cid a b net.wire) →
        (∀ h ∈ hop :: rest, net'.entryAt h.addr cid = net.entryAt h.addr cid) →
        ∃ load', load' + depth = load ∧ Flows net' cid tag depth prev (hop :: rest) sent (back ++ [ask]) load' := by
  have apart : prev ∉ chain hop.addr rest := (List.nodup_cons.mp distinct).1
  cases flows with
  | @hop _ load _ _ _ _ _ taken waiting late mark queue entry climbed returning onward sum =>
    cases late with
    | nil =>
      rw [returning] at arriving
      cases arriving
    | cons ask late =>
      rw [returning, List.map_cons, List.cons.injEq] at arriving
      have answered : ask ∈ echoes (climb Ask.number 0 taken) := onward.back_sublist.subset (by simp)
      have climbs : ask ∈ taken := (climb_sublist 0 taken).subset (List.mem_filter.mp answered).1
      refine ⟨ask, List.mem_append_left _ climbs, arriving.1.symm, fun net' left links entries => ?_⟩
      refine ⟨(depth + 1 + 2 * rest.length) * waiting.length + depth * late.length + load, ?_,
        .hop taken waiting late mark ?_ ?_ climbed (left.trans arriving.2.symm) ?_ rfl⟩
      · rw [sum, List.length_cons, Nat.mul_add]
        omega
      · rw [links _ _ (.inl ⟨rfl, rfl⟩) fun same => apart ?_, queue]
        rw [(Prod.mk.inj same).1]
        exact List.mem_cons_self
      · rw [entries _ List.mem_cons_self, entry]
      · rw [List.append_assoc, List.singleton_append]
        refine onward.frame ?_ fun h member => entries h (List.mem_cons_of_mem _ member)
        intro a b later
        refine links a b (.inr (.inr later)) fun same => apart ?_
        rw [← (Prod.mk.inj same).2]
        exact later.mem.2

/-- With nothing on its way, all that climbs has come back. -/
theorem back_of_idle (flows : Flows net cid tag depth prev (hop :: rest) sent back load)
    (idle : ∀ a b, onLink cid a b net.wire = []) : back = echoes (climb Ask.number 0 sent) := by
  induction rest generalizing prev hop sent back depth load with
  | nil =>
    cases flows with
    | hop taken waiting late _ queue _ _ returning onward _ =>
      obtain rfl : waiting = [] := List.map_eq_nil_iff.mp (queue ▸ idle ..)
      obtain rfl : late = [] := List.map_eq_nil_iff.mp (returning ▸ idle ..)
      rw [List.append_nil, ← onward.at_terminal, List.append_nil]
  | cons next rest ih =>
    cases flows with
    | hop taken waiting late _ queue _ _ returning onward _ =>
      obtain rfl : waiting = [] := List.map_eq_nil_iff.mp (queue ▸ idle ..)
      obtain rfl : late = [] := List.map_eq_nil_iff.mp (returning ▸ idle ..)
      rw [List.append_nil, ← climb_climb, ← ih onward, List.append_nil]

end Flows

/-! ## A cell arrives -/

def outTo (cid : UInt32) (addr : SocketAddr) (effects : List Effect) (y : SocketAddr) : List Cell :=
  onLink cid addr y (packetsOf addr effects)

theorem outTo_send {cid : UInt32} {addr dst : SocketAddr} {msg : RelayMsg} (fits : 7 + msg.onion.length ≤ cellData)
    (y : SocketAddr) : outTo cid addr [.sendCell dst ⟨cid, .relay, 0, relayPayload msg⟩] y =
      if dst = y then [⟨cid, .relay, 0, relayPayload msg⟩] else [] := by
  rw [outTo, packetsOf_relay _ _ _ fits, onLink_cons]
  simp [onLink, relayPacket, Packet.Own]

theorem of_mem_packetsOf {addr : SocketAddr} {effects : List Effect} {p : Packet} (member : p ∈ packetsOf addr effects) :
    p.src = addr ∧ .sendCell p.dst p.cell ∈ effects := by
  obtain ⟨effect, sends, made⟩ := List.mem_filterMap.mp member
  cases effect with
  | sendCell dst cell =>
    dsimp only at made
    split at made
    · obtain rfl := Option.some.inj made
      exact ⟨rfl, sends⟩
    · cases made
  | ensurePeerLink | resolve | deliver => cases made

theorem onLink_packetsOf_ne {cid : UInt32} {addr a b : SocketAddr} (other : a ≠ addr) (effects : List Effect) :
    onLink cid a b (packetsOf addr effects) = [] :=
  List.filterMap_eq_nil_iff.mpr fun _ member => if_neg fun both => other (both.1.1.symm.trans (of_mem_packetsOf member).1)

theorem Network.Step.moved {net net' : Network C} {p : Packet} {cid : UInt32} {entry : CircuitEntry}
    (step : Network.Step net p net') (msg : RelayMsg) (cell : p.cell = ⟨cid, .relay, 0, relayPayload msg⟩)
    (stored : net.entryAt p.dst cid = some entry) (apart : p.src ≠ p.dst) :
    Moved net net' cid p.src p.dst p.cell (outTo cid p.dst (relayDecide C entry p.src msg).effects) ∧
      net'.entryAt p.dst cid =
        some (if (relayDecide C entry p.src msg).accepted then entry.withLastFwd msg.seq else entry) ∧
      net'.notices = net.notices ++ noticesOf p.dst (relayDecide C entry p.src msg).effects := by
  cases step with
  | @deliver before after lookup wire first =>
    obtain ⟨src, dst, _⟩ := p
    dsimp only at cell stored apart first ⊢
    subst cell
    have received := Network.receive_relay net lookup src dst cid msg (before ++ after)
    rw [relayPacket] at received
    rw [received]
    obtain ⟨sent, notices, entries⟩ := Network.relayed_of_stored stored src msg (before ++ after)
    have own : Packet.Own cid ⟨src, dst, ⟨cid, .relay, 0, relayPayload msg⟩⟩ := ⟨rfl, rfl⟩
    have removed := onLink_remove own first after
    have other (a b : SocketAddr) (there : (a, b) ≠ (src, dst)) :
        onLink cid a b net.wire = onLink cid a b (before ++ after) := by
      rw [wire, removed, if_neg, List.nil_append]
      rintro ⟨rfl, rfl⟩
      exact there rfl
    refine ⟨⟨?_, fun y => ?_, fun x y away there => ?_, fun x away => ?_⟩, ?_, notices⟩
    · rw [sent, wire, removed, if_pos ⟨rfl, rfl⟩, onLink_append cid src dst (before ++ after), onLink_packetsOf_ne apart,
        List.append_nil]
      rfl
    · rw [sent, onLink_append, other _ _ fun same => apart (Prod.mk.inj same).1.symm]
      rfl
    · rw [sent, onLink_append, onLink_packetsOf_ne away, List.append_nil, other _ _ there]
    · rw [entries, if_neg fun both => away both.1.1]
    · rw [entries]
      by_cases accepted : (relayDecide C entry src msg).accepted
      · rw [if_pos ⟨⟨rfl, rfl⟩, accepted⟩, if_pos accepted]
      · rw [if_neg fun both => accepted both.2, if_neg accepted, stored]

theorem Network.Step.others {net net' : Network C} {p : Packet} {cid : UInt32} (own : p.Own cid) (step : Network.Step net p net') :
    (∀ a b, a ≠ p.dst → (a, b) ≠ (p.src, p.dst) → onLink cid a b net'.wire = onLink cid a b net.wire) ∧
      ∀ addr, addr ≠ p.dst → net'.entryAt addr cid = net.entryAt addr cid := by
  cases step with
  | @deliver before after lookup wire first =>
    have other (a b : SocketAddr) (there : (a, b) ≠ (p.src, p.dst)) :
        onLink cid a b net.wire = onLink cid a b (before ++ after) := by
      rw [wire, onLink_remove own first, if_neg, List.nil_append]
      rintro ⟨rfl, rfl⟩
      exact there rfl
    unfold Network.receive
    split
    · exact ⟨fun a b _ there => (other a b there).symm, fun _ _ => rfl⟩
    · refine ⟨fun a b away there => ?_, fun addr away => ?_⟩
      · simp only [Network.update, onLink_append, onLink_packetsOf_ne away, List.append_nil]
        exact (onLink_append ..).symm.trans (other a b there).symm
      · simp only [Network.entryAt, Network.update, Table.get_insert_of_ne _ _ away]

theorem Network.Step.split {net net' : Network C} {p : Packet} (step : Network.Step net p net') :
    ∃ before after, net.wire = before ++ p :: after ∧ ∀ q ∈ before, ¬ (q.src = p.src ∧ q.dst = p.dst) := by
  cases step with
  | deliver lookup wire first => exact ⟨_, _, wire, first⟩

def CircuitEntry.Under (entry : CircuitEntry) (cid : UInt32) : Prop :=
  match entry with
  | .origin _ _ _ next _ => next.cid = cid
  | .relay _ _ _ prev next _ => prev.cid = cid ∧ next.cid = cid
  | .terminal _ _ _ prev _ => prev.cid = cid

theorem relayDecide_beside {entry : CircuitEntry} {src dst : SocketAddr} {msg : RelayMsg} {out : Cell}
    (sent : .sendCell dst out ∈ (relayDecide C entry src msg).effects) :
    entry.Beside dst ∧ out.cmd = .relay ∧ ∀ cid, entry.Under cid → out.cid = cid := by
  cases entry with
  | origin fwd bwd tag next streams =>
    simp only [relayDecide] at sent
    split at sent
    · split at sent <;> simp [Decision.effects] at sent
    · simp [Decision.effects] at sent
  | relay tag kFwd kBwd prev next lastFwd =>
    simp only [relayDecide] at sent
    split at sent
    · split at sent
      · simp [Decision.effects] at sent
      split at sent
      · simp only [Decision.effects, Option.toList_some, List.map_cons, List.map_nil, List.mem_singleton,
          Effect.sendCell.injEq] at sent
        obtain ⟨rfl, rfl⟩ := sent
        exact ⟨.inr rfl, rfl, fun cid under => under.2⟩
      · simp [Decision.effects] at sent
    · split at sent
      · simp only [Decision.effects, List.mem_singleton, Effect.sendCell.injEq] at sent
        obtain ⟨rfl, rfl⟩ := sent
        exact ⟨.inl rfl, rfl, fun cid under => under.1⟩
      · simp [Decision.effects] at sent
  | terminal tag kFwd kBwd prev lastFwd =>
    simp only [relayDecide] at sent
    split at sent
    · simp [Decision.effects] at sent
    split at sent
    · split at sent
      · simp only [Decision.effects, Option.toList_some, List.map_cons, List.map_nil, List.mem_singleton,
          Effect.sendCell.injEq] at sent
        obtain ⟨rfl, rfl⟩ := sent
        exact ⟨rfl, rfl, fun cid under => under⟩
      · simp [Decision.effects] at sent
      · simp [Decision.effects] at sent
    · simp [Decision.effects] at sent

theorem Node.handleRelay_sends {node : Node C} {src dst : SocketAddr} {cell out : Cell} {entry : CircuitEntry}
    (stored : node.circuits.get cell.cid = some entry) (sends : .sendCell dst out ∈ (node.handleRelay src cell).2) :
    entry.Beside dst ∧ out.cmd = .relay ∧ ∀ cid, entry.Under cid → out.cid = cid := by
  unfold handleRelay at sends
  cases parsed : parseRelay cell.payload with
  | error | panic => simp [parsed] at sends
  | ok msg =>
    simp only [parsed, stored] at sends
    exact relayDecide_beside sends

theorem Network.Step.along {net net' : Network C} {p : Packet} {cid : UInt32} {entry : CircuitEntry} (own : p.Own cid)
    (stored : net.entryAt p.dst cid = some entry) (step : Network.Step net p net') {y : SocketAddr} (apart : p.src ≠ p.dst)
    (other : ¬ entry.Beside y) : onLink cid p.dst y net'.wire = onLink cid p.dst y net.wire := by
  obtain ⟨node, present, here⟩ := Option.bind_eq_some_iff.mp stored
  cases step with
  | @deliver before after lookup wire first =>
    have silent : onLink cid p.dst y (packetsOf p.dst (node.handleRelay p.src p.cell).2) = [] := by
      refine List.filterMap_eq_nil_iff.mpr fun q member => if_neg ?_
      rintro ⟨⟨-, rfl⟩, -⟩
      exact other (Node.handleRelay_sends (own.1 ▸ here) (of_mem_packetsOf member).2).1
    simp only [Network.receive, present, Node.handleCell, own.2, Network.update]
    rw [onLink_append, silent, List.append_nil, wire, onLink_remove own first, if_neg fun same => apart same.1]
    rfl

def Fit (hops : List Hop) (asks : List Ask) : Prop := ∀ ask ∈ asks, 7 + (ask.msg.length + 16 * hops.length) ≤ cellData

namespace Flows

variable {net net' : Network C} {cid : UInt32} {tag : Octets 16} {prev : SocketAddr} {hop : Hop} {rest hops : List Hop}
  {sent back : List Ask} {depth load : Nat} {p : Packet}

theorem relayDecide_ask (laws : C.Lawful) (tag : Octets 16) (prev : SocketAddr) {hop : Hop} {ask : Ask}
    (above : hop.lastFwd < ask.seq) :
    relayDecide C (hop.entry tag prev none) prev ⟨ask.seq, ask.rcmd, ask.stream, sealOnion C [hop.kFwd] tag ask.seq ask.msg⟩ =
      .accept (if ask.rcmd = .echo then some (prev, ask.reply C hop.cid [hop.kBwd] tag) else none) := by
  obtain ⟨seq, rcmd, stream, data⟩ := ask
  simp only [Hop.entry, relayDecide, if_neg (terminal_passes above), openOnion_sealOnion laws]
  cases rcmd <;> rfl

theorem answers (laws : C.Lawful) {ask : Ask} (room : 7 + (ask.msg.length + 16) ≤ cellData) (here : hop.cid = cid) :
    outTo cid hop.addr
        (Decision.accept (if ask.rcmd = .echo then some (prev, ask.reply C hop.cid [hop.kBwd] tag) else none)).effects prev =
      (echoes [ask]).map (Ask.reply C cid [hop.kBwd] tag) := by
  by_cases echo : ask.rcmd = .echo
  · rw [if_pos echo, echoes, List.filter_cons_of_pos (by simpa using echo), here]
    refine (outTo_send ?_ prev).trans (if_pos rfl)
    rw [length_replyOnion laws]
    exact room
  · rw [if_neg echo, echoes, List.filter_cons_of_neg (by simpa using echo)]
    rfl

theorem forward (laws : C.Lawful) (flows : Flows net cid tag depth prev (hop :: rest) sent back load)
    (distinct : (chain prev (hop :: rest)).Nodup) (uniform : ∀ h ∈ hop :: rest, h.cid = cid) (fit : Fit (hop :: rest) sent)
    (own : p.Own cid) (src : p.src = prev) (dst : p.dst = hop.addr) (step : Network.Step net p net') :
    ∃ load' < load, Flows net' cid tag depth prev (hop :: rest) sent back load' := by
  obtain ⟨apart, later⟩ := List.nodup_cons.mp distinct
  obtain ⟨apart', -⟩ := List.nodup_cons.mp later
  have ne : prev ≠ hop.addr := fun same => apart (same ▸ List.mem_cons_self)
  cases flows with
  | @hop _ load _ _ _ _ _ taken waiting late mark queue entry climbed backward onward sum =>
    obtain ⟨before, after, wire, first⟩ := step.split
    have arriving := onLink_remove own first after p.src p.dst
    rw [if_pos ⟨rfl, rfl⟩, ← wire, src, dst, queue, List.singleton_append] at arriving
    cases waiting with
    | nil => cases arriving
    | cons ask waiting =>
      rw [List.map_cons, List.cons.injEq] at arriving
      let msg : RelayMsg := ⟨ask.seq, ask.rcmd, ask.stream, sealOnion C ((hop :: rest).map Hop.kFwd) tag ask.seq ask.msg⟩
      have cell : p.cell = ⟨cid, .relay, 0, relayPayload msg⟩ := arriving.1.symm
      obtain ⟨moved, entry', -⟩ := step.moved msg cell (dst ▸ entry) (src ▸ dst ▸ ne)
      rw [src, dst] at moved entry'
      have queue' : onLink cid prev hop.addr net'.wire = waiting.map (Ask.cell C cid ((hop :: rest).map Hop.kFwd) tag) := by
        have arrived := moved.arrived
        rw [queue, List.map_cons, List.cons.injEq] at arrived
        exact arrived.2.symm
      have entries : ∀ h ∈ rest, net'.entryAt h.addr cid = net.entryAt h.addr cid := by
        refine fun h member => moved.entries _ fun same => apart' ?_
        rw [← same]
        exact List.mem_map_of_mem member
      -- Of the links behind, only the one to the next hop may get a cell.
      have links (a b : SocketAddr) (behind : Adjacent hop.addr rest a b) :
          onLink cid a b net'.wire = onLink cid a b net.wire ++
            if a = hop.addr then outTo cid hop.addr
              (relayDecide C ((hop.peeled mark).entry tag prev rest.head?) prev msg).effects b else [] := by
        by_cases here : a = hop.addr
        · rw [if_pos here, here]
          exact moved.sent b
        · rw [if_neg here, List.append_nil]
          refine moved.links a b here fun same => apart ?_
          rw [← (Prod.mk.inj same).1]
          exact behind.mem.1
      rw [show taken ++ ask :: waiting = (taken ++ [ask]) ++ waiting by simp]
      have backward' := moved.sent prev
      by_cases above : mark < ask.seq
      · have higher : summit Ask.number 0 taken < ask.number := by
          rw [← climbed]
          exact UInt32.lt_iff_toNat_lt.mp above
        have here : hop.cid = cid := uniform hop List.mem_cons_self
        have room := fit ask (by simp)
        have climbed' : ask.seq.toNat = summit Ask.number 0 (taken ++ [ask]) := by
          rw [summit_snoc, if_pos higher]
          rfl
        -- At the last hop the echo turns round; before it, the cell goes on to the next.
        cases rest with
        | nil =>
          have decided : relayDecide C ((hop.peeled mark).entry tag prev none) prev msg = _ := relayDecide_ask laws tag prev above
          have answered : outTo cid hop.addr (relayDecide C ((hop.peeled mark).entry tag prev none) prev msg).effects prev = _ :=
            (congrArg (outTo cid hop.addr ·.effects prev) decided).trans (answers laws (by simpa using room) here)
          rw [List.head?_nil] at entry' backward'
          have few : (echoes [ask]).length ≤ 1 := List.length_filter_le ..
          have ended : Flows net' cid tag (depth + 1) hop.addr [] (climb Ask.number 0 (taken ++ [ask]))
              (back ++ (late ++ echoes [ask])) 0 := by
            rw [← List.append_assoc, onward.at_terminal, climb_snoc, if_pos higher, ← echoes_append]
            exact .terminal _ _ _
          refine ⟨_, ?_, .hop (taken ++ [ask]) waiting (late ++ echoes [ask]) ask.seq queue' ?_ climbed' ?_ ended rfl⟩
          · have more := Nat.mul_le_mul_left depth few
            simp only [sum, List.length_append, List.length_cons, List.length_nil, Nat.mul_add]
            omega
          · rw [entry', decided, Decision.accepted, if_pos rfl, Hop.withLastFwd_entry]
            rfl
          · rw [backward', answered, backward, List.map_append]
            rfl
        | cons next rest =>
          have decided : relayDecide C ((hop.peeled mark).entry tag prev (some next)) prev msg = _ :=
            relayDecide_out laws tag prev (hop.peeled mark) ask.msg ask.rcmd ask.stream next ((next :: rest).map Hop.kFwd) above
          have there : next.cid = cid := uniform next (List.mem_cons_of_mem _ List.mem_cons_self)
          have fits : 7 + (sealOnion C ((next :: rest).map Hop.kFwd) tag ask.seq ask.msg).length ≤ cellData := by
            rw [length_sealOnion laws, List.length_map]
            simp only [List.length_cons] at room ⊢
            omega
          have sends (y : SocketAddr) :
              outTo cid hop.addr (relayDecide C ((hop.peeled mark).entry tag prev (some next)) prev msg).effects y =
                if next.addr = y then [Ask.cell C cid ((next :: rest).map Hop.kFwd) tag ask] else [] := by
            rw [decided, there]
            exact outTo_send fits y
          rw [List.head?_cons] at entry' backward' links
          have pushed : Flows net' cid tag (depth + 1) hop.addr (next :: rest) (climb Ask.number 0 (taken ++ [ask])) (back ++ late)
              (load + (depth + 1 + 1 + 2 * rest.length)) := by
            rw [climb_snoc, if_pos higher]
            refine onward.push ask ?_ (fun a b behind other => ?_) entries later
            · rw [links _ _ (.inl ⟨rfl, rfl⟩), if_pos rfl, sends, if_pos rfl]
            · rw [links a b behind]
              split
              next same =>
                rw [sends, if_neg fun target => other (by rw [same, target]), List.append_nil]
              next => exact List.append_nil _
          refine ⟨_, ?_, .hop (taken ++ [ask]) waiting late ask.seq queue' ?_ climbed' ?_ pushed rfl⟩
          · simp only [sum, List.length_cons, Nat.mul_add]
            omega
          · rw [List.head?_cons, entry', decided, Decision.accepted, if_pos rfl, Hop.withLastFwd_entry]
            rfl
          · have away : next.addr ≠ prev := fun same => apart (by simp [← same])
            rw [backward', sends, if_neg away, List.append_nil, backward]
      -- A number that is not above the mark: the hop drops the cell, and so nobody behind it ever sees the ask.
      · have lower : ¬ summit Ask.number 0 taken < ask.number := by
          rw [← climbed]
          exact fun higher => above (UInt32.lt_iff_toNat_lt.mpr higher)
        have dropped : relayDecide C ((hop.peeled mark).entry tag prev rest.head?) prev msg = .drop :=
          relayDecide_replay tag prev rest.head? (UInt32.not_lt.mp above)
        rw [dropped] at entry' backward'
        have still : Flows net' cid tag (depth + 1) hop.addr rest (climb Ask.number 0 (taken ++ [ask])) (back ++ late) load := by
          rw [climb_snoc, if_neg lower, List.append_nil]
          refine onward.frame (fun a b behind => ?_) entries
          rw [links a b behind, dropped]
          split <;> exact List.append_nil _
        refine ⟨_, ?_, .hop (taken ++ [ask]) waiting late mark queue' entry' ?_ ?_ still rfl⟩
        · simp only [sum, List.length_cons, Nat.mul_add]
          omega
        · rw [summit_snoc, if_neg lower, climbed]
        · exact (backward'.trans (List.append_nil _)).trans backward

theorem head_of_step (own : p.Own cid) (step : Network.Step net p net') :
    ∃ more, onLink cid p.src p.dst net.wire = p.cell :: more := by
  obtain ⟨before, after, wire, first⟩ := step.split
  have arriving := onLink_remove own first after p.src p.dst
  rw [if_pos ⟨rfl, rfl⟩, ← wire] at arriving
  exact ⟨_, arriving⟩

theorem backward {next : Hop} (laws : C.Lawful) (flows : Flows net cid tag depth prev (hop :: next :: rest) sent back load)
    (distinct : (chain prev (hop :: next :: rest)).Nodup) (uniform : ∀ h ∈ hop :: next :: rest, h.cid = cid)
    (fit : Fit (hop :: next :: rest) sent) (own : p.Own cid) (src : p.src = next.addr) (dst : p.dst = hop.addr)
    (step : Network.Step net p net') : ∃ load' < load, Flows net' cid tag depth prev (hop :: next :: rest) sent back load' := by
  obtain ⟨apart, later⟩ := List.nodup_cons.mp distinct
  obtain ⟨apart', -⟩ := List.nodup_cons.mp later
  have ne : next.addr ≠ hop.addr := fun same => apart' (by simp [← same])
  have forth : next.addr ≠ prev := fun same => apart (by simp [← same])
  have ahead : prev ≠ hop.addr := fun same => apart (same ▸ List.mem_cons_self)
  have here : hop.cid = cid := uniform hop List.mem_cons_self
  cases flows with
  | @hop _ load _ _ _ _ _ taken waiting late mark queue entry climbed returning onward sum =>
    obtain ⟨more, arriving⟩ := head_of_step own step
    rw [src, dst] at arriving
    -- What comes back from the hops behind is the reply that they owe next.
    obtain ⟨ask, member, cell, popped⟩ := onward.pop arriving later
    have room := fit ask (List.mem_append_left _ ((climb_sublist 0 taken).subset member))
    let msg : RelayMsg := ⟨ask.seq, ask.rcmd, ask.stream, replyOnion C ((next :: rest).map Hop.kBwd) tag ask.seq ask.msg⟩
    have passes : relayDecide C ((hop.peeled mark).entry tag prev (some next)) next.addr msg =
        .pass prev ⟨hop.cid, .relay, 0, relayPayload
          { msg with onion := replyOnion C ((hop :: next :: rest).map Hop.kBwd) tag ask.seq ask.msg }⟩ := by
      simp only [Hop.entry, relayDecide, if_neg forth, if_true]
      rfl
    obtain ⟨moved, entry', -⟩ := step.moved msg cell (dst ▸ entry) (src ▸ dst ▸ ne)
    rw [src, dst] at moved entry'
    have fits : 7 + (replyOnion C ((hop :: next :: rest).map Hop.kBwd) tag ask.seq ask.msg).length ≤ cellData := by
      rw [length_replyOnion laws, List.length_map]
      exact room
    have sends (y : SocketAddr) : outTo cid hop.addr
        (relayDecide C ((hop.peeled mark).entry tag prev (some next)) next.addr msg).effects y =
        if prev = y then [Ask.reply C cid ((hop :: next :: rest).map Hop.kBwd) tag ask] else [] := by
      rw [passes, here]
      exact outTo_send fits y
    rw [List.head?_cons] at moved entry'
    have links (a b : SocketAddr) (behind : Adjacent hop.addr (next :: rest) a b) (other : (a, b) ≠ (next.addr, hop.addr)) :
        onLink cid a b net'.wire = onLink cid a b net.wire := by
      by_cases same : a = hop.addr
      · have away : prev ≠ b := fun same' => apart (same' ▸ behind.mem.2)
        rw [same, moved.sent, sends, if_neg away, List.append_nil]
      · exact moved.links a b same other
    have entries (h : Hop) (member : h ∈ next :: rest) : net'.entryAt h.addr cid = net.entryAt h.addr cid := by
      refine moved.entries _ fun same => apart' ?_
      rw [← same]
      exact List.mem_map_of_mem member
    have left : onLink cid next.addr hop.addr net'.wire = more := (List.cons.inj (moved.arrived.symm.trans arriving)).2
    obtain ⟨load', less, onward'⟩ := popped net' left links entries
    refine ⟨_, ?_, .hop taken waiting (late ++ [ask]) mark ?_ ?_ climbed ?_ (List.append_assoc .. ▸ onward') rfl⟩
    · rw [sum, List.length_append, List.length_singleton, Nat.mul_add]
      omega
    · rw [moved.links _ _ ahead fun same => forth (Prod.mk.inj same).1.symm, queue]
    · rw [List.head?_cons, entry', passes]
      exact congrArg some (if_neg fun accepted => by cases accepted)
    · rw [moved.sent, sends, if_pos rfl, returning, List.map_append, List.map_singleton]

theorem deliver (laws : C.Lawful) (flows : Flows net cid tag depth prev hops sent back load) (distinct : (chain prev hops).Nodup)
    (uniform : ∀ h ∈ hops, h.cid = cid) (fit : Fit hops sent) (own : p.Own cid) (adjacent : Adjacent prev hops p.src p.dst)
    (away : p.dst ≠ prev) (step : Network.Step net p net') :
    ∃ load' < load, Flows net' cid tag depth prev hops sent back load' := by
  induction hops generalizing prev sent back depth load with
  | nil => exact adjacent.elim
  | cons hop rest ih =>
    rcases adjacent with ⟨src, dst⟩ | ⟨-, home⟩ | behind
    · exact flows.forward laws distinct uniform fit own src dst step
    · exact absurd home away
    obtain ⟨apart, later⟩ := List.nodup_cons.mp distinct
    by_cases here : p.dst = hop.addr
    · cases rest with
      | nil => exact behind.elim
      | cons next rest =>
        have apart' : hop.addr ∉ chain next.addr rest := (List.nodup_cons.mp later).1
        rcases behind with ⟨-, dst⟩ | ⟨src, -⟩ | beyond
        · exact absurd (here.symm.trans dst ▸ List.mem_cons_self) apart'
        · exact flows.backward laws distinct uniform fit own src here step
        · exact absurd (here ▸ beyond.mem.2) apart'
    -- Further behind: the first hop and its links are as they were.
    · obtain ⟨links, entries⟩ := step.others own
      have ne : prev ≠ hop.addr := fun same => apart (same ▸ List.mem_cons_self)
      have src : p.src ≠ prev := fun same => apart (same ▸ behind.mem.1)
      cases flows with
      | @hop _ load _ _ _ _ _ taken waiting late mark queue entry climbed returning onward sum =>
        have fit' : Fit rest (climb Ask.number 0 taken) := by
          intro ask member
          have room := fit ask (List.mem_append_left _ ((climb_sublist 0 taken).subset member))
          simp only [List.length_cons] at room
          omega
        have uniform' (h : Hop) (member : h ∈ rest) : h.cid = cid := uniform h (List.mem_cons_of_mem _ member)
        obtain ⟨load', less, onward'⟩ := ih onward later uniform' fit' behind here
        refine ⟨_, ?_, .hop taken waiting late mark ?_ ?_ climbed ?_ onward' rfl⟩
        · rw [sum]
          omega
        · rw [links _ _ away.symm fun same => src (Prod.mk.inj same).1.symm, queue]
        · rw [entries _ (Ne.symm here), entry]
        · rw [links _ _ (Ne.symm here) fun same => away (Prod.mk.inj same).2.symm, returning]

theorem beside (flows : Flows net cid tag depth prev hops sent back load) (uniform : ∀ h ∈ hops, h.cid = cid)
    (member : hop ∈ hops) : ∃ entry, net.entryAt hop.addr cid = some entry ∧
      (∀ b, entry.Beside b → Adjacent prev hops hop.addr b) ∧ entry.Under cid := by
  induction flows with
  | terminal => cases member
  | @hop _ _ _ prev first rest back taken waiting late mark _ entry _ _ _ _ ih =>
    rcases List.mem_cons.mp member with rfl | later
    · have here : hop.cid = cid := uniform hop List.mem_cons_self
      cases rest with
      | nil => exact ⟨_, entry, fun b beside => .inr (.inl ⟨rfl, beside.symm⟩), here⟩
      | cons next rest =>
        refine ⟨_, entry, fun b beside => ?_, here, uniform next (by simp)⟩
        rcases beside with near | far
        · exact .inr (.inl ⟨rfl, near.symm⟩)
        · exact .inr (.inr (.inl ⟨rfl, far.symm⟩))
    · obtain ⟨entry, stored, links, under⟩ := ih (fun h member => uniform h (List.mem_cons_of_mem _ member)) later
      exact ⟨entry, stored, fun b beside => .inr (.inr (links b beside)), under⟩

end Flows

/-! ## The origin -/

/-- A network, what the origin has said on the circuit, what the streams of its node have been handed for it, and how
many cells of the circuit have arrived anywhere. -/
structure Talk (C : Crates) where
  net : Network C
  said : List Ask
  heard : List (List UInt8)
  arrivals : Nat

inductive TalkEvent where
  | echo (tx : StreamTx) (msg : List UInt8)
  | sendData (msg : List UInt8) (stream : UInt16)
  | arrive (p : Packet)
  | elsewhere

def handed (addr : SocketAddr) (notices : List (SocketAddr × Effect)) : List (List UInt8) :=
  notices.filterMap fun
    | (a, .deliver _ data) => if a = addr then some data else none
    | _ => none

structure LeavesAlone (cid : UInt32) (net net' : Network C) : Prop where
  entries : ∀ addr, net'.entryAt addr cid = net.entryAt addr cid
  links : ∀ a b, onLink cid a b net'.wire = onLink cid a b net.wire

namespace Talk

variable (originAddr : SocketAddr) (handle : CircuitHandle)

inductive Step : Talk C → TalkEvent → Talk C → Prop where
  | echo {k : Talk C} {node node' : Node C} {effects : List Effect} {tx : StreamTx} {msg : List UInt8} :
      k.net.nodes.get originAddr = some node → node.echo handle tx msg = (node', effects, .ok ()) →
      Step k (.echo tx msg) { k with net := k.net.update originAddr node' effects k.net.wire,
                                     said := k.said ++ [⟨node.seqOrigin, .echo, 1, msg⟩] }
  | sendData {k : Talk C} {node node' : Node C} {effects : List Effect} {msg : List UInt8} {stream : UInt16} :
      k.net.nodes.get originAddr = some node → node.sendData handle msg stream = (node', effects, .ok ()) →
      Step k (.sendData msg stream) { k with net := k.net.update originAddr node' effects k.net.wire,
                                             said := k.said ++ [⟨node.seqOrigin, .data, stream, msg⟩] }
  | arrive {k : Talk C} {p : Packet} {net' : Network C} : p.Own handle.cid → Network.Step k.net p net' →
      Step k (.arrive p) { k with net := net',
                                  heard := k.heard ++ handed originAddr (net'.notices.drop k.net.notices.length),
                                  arrivals := k.arrivals + 1 }
  | elsewhere {k : Talk C} {net' : Network C} : LeavesAlone handle.cid k.net net' → Step k .elsewhere { k with net := net' }

end Talk

/-- A circuit whose hops all store their entries under the origin's cid, on nodes that all differ. -/
structure Uniform (originAddr : SocketAddr) (handle : CircuitHandle) (first : Hop) (rest : List Hop) : Prop where
  distinct : (chain originAddr (first :: rest)).Nodup
  cids : ∀ hop ∈ first :: rest, hop.cid = handle.cid
  short : (first :: rest).length ≤ maxHops
  fwd : handle.fwd = (first :: rest).map Hop.kFwd
  bwd : handle.bwd = (first :: rest).map Hop.kBwd

structure Talk.Going (originAddr : SocketAddr) (handle : CircuitHandle) (first : Hop) (rest : List Hop) (k : Talk C) : Prop where
  entry : ∃ streams : Table UInt16 StreamTx, k.net.entryAt originAddr handle.cid =
    some (.origin handle.fwd handle.bwd handle.tag ⟨handle.cid, first.addr⟩ streams) ∧
    (echoes k.said ≠ [] → (streams.get 1).isSome)
  onOne : ∀ ask ∈ echoes k.said, ask.stream = 1
  fit : Fit (first :: rest) k.said
  flows : ∃ back load, Flows k.net handle.cid handle.tag 1 originAddr (first :: rest) k.said back load ∧
    k.heard = back.map Ask.msg ∧ k.arrivals + load ≤ 2 * (first :: rest).length * k.said.length
  places : ∀ a b, onLink handle.cid a b k.net.wire ≠ [] → Adjacent originAddr (first :: rest) a b

namespace Talk

variable {originAddr : SocketAddr} {handle : CircuitHandle} {first : Hop} {rest : List Hop} {k k' : Talk C}

theorem send_origin {node node' : Node C} {effects : List Effect} {stream : UInt16} {rcmd : RCmd} {msg : List UInt8}
    {streams : Table UInt16 StreamTx}
    (stored : node.circuits.get handle.cid = some (.origin handle.fwd handle.bwd handle.tag ⟨handle.cid, first.addr⟩ streams))
    (sends : node.send handle stream rcmd msg = (node', effects, .ok ())) : node'.circuits = node.circuits ∧
      effects = [.sendCell first.addr (Ask.cell C handle.cid handle.fwd handle.tag ⟨node.seqOrigin, rcmd, stream, msg⟩)] := by
  simp only [Node.send, stored, Prod.mk.injEq] at sends
  obtain ⟨rfl, rfl, -⟩ := sends
  exact ⟨rfl, rfl⟩

theorem Going.say (laws : C.Lawful) (uniform : Uniform originAddr handle first rest) (going : k.Going originAddr handle first rest)
    {node' : Node C} {streams : Table UInt16 StreamTx} {ask : Ask}
    (stored : node'.circuits.get handle.cid = some (.origin handle.fwd handle.bwd handle.tag ⟨handle.cid, first.addr⟩ streams))
    (opened : echoes (k.said ++ [ask]) ≠ [] → (streams.get 1).isSome) (onOne : ask.rcmd = .echo → ask.stream = 1)
    (short : ask.msg.length ≤ msgMax) : Going originAddr handle first rest
      { k with net := k.net.update originAddr node' [.sendCell first.addr (ask.cell C handle.cid handle.fwd handle.tag)] k.net.wire,
               said := k.said ++ [ask] } := by
  obtain ⟨back, load, flows, heard, few⟩ := going.flows
  have room : 7 + (ask.msg.length + 16 * (first :: rest).length) ≤ cellData := by
    have few := uniform.short
    simp only [maxHops, msgMax, cellData, cellLen, cellHdr] at few short ⊢
    omega
  have fits : 7 + (sealOnion C handle.fwd handle.tag ask.seq ask.msg).length ≤ cellData := by
    rw [length_sealOnion laws, uniform.fwd, List.length_map]
    exact room
  have packets : packetsOf originAddr [.sendCell first.addr (ask.cell C handle.cid handle.fwd handle.tag)] =
      [relayPacket originAddr first.addr handle.cid
        ⟨ask.seq, ask.rcmd, ask.stream, sealOnion C handle.fwd handle.tag ask.seq ask.msg⟩] := packetsOf_relay _ _ _ fits
  have links (a b : SocketAddr) : onLink handle.cid a b (k.net.wire ++ packetsOf originAddr
      [.sendCell first.addr (ask.cell C handle.cid handle.fwd handle.tag)]) = onLink handle.cid a b k.net.wire ++
        if originAddr = a ∧ first.addr = b then [ask.cell C handle.cid handle.fwd handle.tag] else [] := by
    rw [onLink_append, packets, onLink_cons]
    simp [onLink, relayPacket, Packet.Own, Ask.cell]
  have home : originAddr ∉ (first :: rest).map Hop.addr := (List.nodup_cons.mp uniform.distinct).1
  have elsewhere (hop : Hop) (member : hop ∈ first :: rest) :
      (k.net.update originAddr node' [.sendCell first.addr (ask.cell C handle.cid handle.fwd handle.tag)] k.net.wire).entryAt
        hop.addr handle.cid = k.net.entryAt hop.addr handle.cid := by
    have away : hop.addr ≠ originAddr := fun same => home (same ▸ List.mem_map_of_mem member)
    simp only [Network.entryAt, Network.update, Table.get_insert_of_ne _ _ away]
  refine ⟨⟨streams, ?_, opened⟩, ?_, ?_,
    ⟨back, _, flows.push ask ?_ ?_ elsewhere uniform.distinct, heard, ?_⟩, fun a b some => ?_⟩
  · exact (Network.entryAt_of_get (Table.get_insert_self ..) _).trans stored
  · intro other member
    rw [echoes_append, List.mem_append] at member
    rcases member with before | new
    · exact going.onOne other before
    · obtain ⟨last, echo⟩ := List.mem_filter.mp new
      obtain rfl := List.mem_singleton.mp last
      exact onOne (by simpa using echo)
  · intro other member
    rcases List.mem_append.mp member with before | new
    · exact going.fit other before
    · rw [List.mem_singleton.mp new]
      exact room
  · rw [← uniform.fwd]
    exact (links _ _).trans (by rw [if_pos ⟨rfl, rfl⟩])
  · intro a b _ other
    refine (links a b).trans ?_
    rw [if_neg, List.append_nil]
    rintro ⟨rfl, rfl⟩
    exact other rfl
  · simp only [List.length_append, List.length_cons, List.length_nil, Nat.mul_add] at few ⊢
    omega
  · by_cases here : originAddr = a ∧ first.addr = b
    · exact .inl ⟨here.1.symm, here.2.symm⟩
    · refine going.places a b ?_
      have same := links a b
      rw [if_neg here, List.append_nil] at same
      exact same ▸ some

theorem Going.adjacent (going : k.Going originAddr handle first rest) {p : Packet} {net' : Network C} (own : p.Own handle.cid)
    (step : Network.Step k.net p net') : Adjacent originAddr (first :: rest) p.src p.dst := by
  obtain ⟨more, arriving⟩ := Flows.head_of_step own step
  exact going.places _ _ (by simp [arriving])

theorem outTo_origin (cid : UInt32) (addr src y : SocketAddr) (fwd bwd : List (Octets 32)) (tag : Octets 16) (next : HopLink)
    (streams : Table UInt16 StreamTx) (msg : RelayMsg) :
    outTo cid addr (relayDecide C (.origin fwd bwd tag next streams) src msg).effects y = [] := by
  simp only [relayDecide]
  split
  · split <;> rfl
  · rfl

theorem Going.arrive_home (laws : C.Lawful) (uniform : Uniform originAddr handle first rest)
    (going : k.Going originAddr handle first rest) {p : Packet} {net' : Network C} (own : p.Own handle.cid)
    (home : p.dst = originAddr) (step : Network.Step k.net p net') : Going originAddr handle first rest
      { k with net := net', heard := k.heard ++ handed originAddr (net'.notices.drop k.net.notices.length),
               arrivals := k.arrivals + 1 } := by
  obtain ⟨streams, entry, opened⟩ := going.entry
  obtain ⟨back, load, flows, heard, few⟩ := going.flows
  have apart : originAddr ∉ chain first.addr rest := (List.nodup_cons.mp uniform.distinct).1
  have src : p.src = first.addr := by
    rcases going.adjacent own step with ⟨-, dst⟩ | ⟨src, -⟩ | behind
    · exact absurd (home.symm.trans dst ▸ List.mem_cons_self) apart
    · exact src
    · exact absurd (home ▸ behind.mem.2) apart
  have ne : first.addr ≠ originAddr := fun same => apart (same ▸ List.mem_cons_self)
  obtain ⟨more, arriving⟩ := Flows.head_of_step own step
  rw [src, home] at arriving
  obtain ⟨ask, -, cell, popped⟩ := flows.pop arriving uniform.distinct
  let msg : RelayMsg := ⟨ask.seq, ask.rcmd, ask.stream, replyOnion C ((first :: rest).map Hop.kBwd) handle.tag ask.seq ask.msg⟩
  obtain ⟨moved, entry', notices⟩ := step.moved msg cell (home ▸ entry) (src ▸ home ▸ ne)
  rw [src, home] at moved entry' notices
  have links (a b : SocketAddr) (other : (a, b) ≠ (first.addr, originAddr)) :
      onLink handle.cid a b net'.wire = onLink handle.cid a b k.net.wire := by
    by_cases at_home : a = originAddr
    · rw [at_home, moved.sent, outTo_origin, List.append_nil]
    · exact moved.links a b at_home other
  obtain ⟨load', less, returned⟩ :=
    popped net' (List.cons.inj (moved.arrived.symm.trans arriving)).2 (fun a b _ other => links a b other) fun h member =>
      moved.entries _ fun same => apart (same ▸ List.mem_map_of_mem member)
  -- Only an echo is replied to, and an echo has registered the stream first.
  have answered : ask ∈ echoes k.said := returned.back_sublist.subset (by simp)
  obtain ⟨tx, registered⟩ := Option.isSome_iff_exists.mp (opened (List.ne_nil_of_mem answered))
  have hands : relayDecide C (.origin handle.fwd handle.bwd handle.tag ⟨handle.cid, first.addr⟩ streams) first.addr msg =
      .deliver tx ask.msg := by
    simp only [relayDecide, uniform.bwd, msg, openBwdAll_replyOnion laws, going.onOne ask answered, registered]
  rw [hands] at moved entry' notices
  refine ⟨⟨streams, entry', opened⟩, going.onOne, going.fit, ⟨back ++ [ask], load', returned, ?_, by dsimp only; omega⟩,
    fun a b some => ?_⟩
  · simp only [notices, List.drop_left, heard, List.map_append, List.map_singleton]
    simp [handed, noticesOf, Decision.effects]
  · by_cases link : (a, b) = (first.addr, originAddr)
    · obtain ⟨rfl, rfl⟩ := Prod.mk.inj link
      exact .inr (.inl ⟨rfl, rfl⟩)
    · exact going.places a b (links a b link ▸ some)

theorem handed_elsewhere {net net' : Network C} {p : Packet} (away : p.dst ≠ originAddr) (step : Network.Step net p net') :
    handed originAddr (net'.notices.drop net.notices.length) = [] := by
  cases step with
  | deliver lookup _ _ =>
    unfold Network.receive
    split
    · simp [handed]
    · simp only [Network.update, List.drop_left]
      refine List.filterMap_eq_nil_iff.mpr fun notice member => ?_
      obtain ⟨effect, -, made⟩ := List.mem_filterMap.mp member
      cases effect with
      | deliver tx data =>
        obtain rfl := Option.some.inj made
        exact if_neg away
      | resolve =>
        obtain rfl := Option.some.inj made
        rfl
      | sendCell | ensurePeerLink => cases made

theorem Going.arrive (laws : C.Lawful) (uniform : Uniform originAddr handle first rest)
    (going : k.Going originAddr handle first rest) {p : Packet} {net' : Network C} (own : p.Own handle.cid)
    (away : p.dst ≠ originAddr) (step : Network.Step k.net p net') : Going originAddr handle first rest
      { k with net := net', heard := k.heard ++ handed originAddr (net'.notices.drop k.net.notices.length),
               arrivals := k.arrivals + 1 } := by
  obtain ⟨streams, entry, opened⟩ := going.entry
  obtain ⟨back, load, flows, heard, few⟩ := going.flows
  have adjacent := going.adjacent own step
  obtain ⟨links, entries⟩ := step.others own
  obtain ⟨load', less, onward⟩ := flows.deliver laws uniform.distinct uniform.cids going.fit own adjacent away step
  refine ⟨⟨streams, (entries _ away.symm).trans entry, opened⟩, going.onOne, going.fit,
    ⟨back, load', onward, ?_, by dsimp only; omega⟩, fun a b some => ?_⟩
  · rw [handed_elsewhere away step, List.append_nil]
    exact heard
  · by_cases link : (a, b) = (p.src, p.dst)
    · obtain ⟨rfl, rfl⟩ := Prod.mk.inj link
      exact adjacent
    -- A hop sends along the circuit only.
    by_cases at_dst : a = p.dst
    · subst at_dst
      obtain ⟨hop, member, addr⟩ := List.mem_map.mp ((List.mem_cons.mp adjacent.mem.2).resolve_left away)
      obtain ⟨entry, stored, neighbours, -⟩ := flows.beside uniform.cids member
      by_cases beside : entry.Beside b
      · exact addr ▸ neighbours b beside
      · have same := step.along own (addr ▸ stored) (adjacent.ne uniform.distinct) beside
        exact going.places _ _ (same ▸ some)
    · exact going.places a b (links a b at_dst link ▸ some)

theorem Going.says (going : k.Going originAddr handle first rest) {event : TalkEvent} (step : Step originAddr handle k event k') :
    (∃ (node' : Node C) (streams : Table UInt16 StreamTx) (ask : Ask),
      node'.circuits.get handle.cid = some (.origin handle.fwd handle.bwd handle.tag ⟨handle.cid, first.addr⟩ streams) ∧
      (echoes (k.said ++ [ask]) ≠ [] → (streams.get 1).isSome) ∧ (ask.rcmd = .echo → ask.stream = 1) ∧
      ask.msg.length ≤ msgMax ∧ k' =
        { k with net := k.net.update originAddr node' [.sendCell first.addr (ask.cell C handle.cid handle.fwd handle.tag)] k.net.wire,
                 said := k.said ++ [ask] }) ∨
      (∃ p, event = .arrive p) ∨ event = .elsewhere := by
  obtain ⟨streams, entry, opened⟩ := going.entry
  cases step with
  | @echo node node' effects tx msg present asked =>
    rw [Network.entryAt_of_get present] at entry
    simp only [Node.echo] at asked
    split at asked
    · cases asked
    next short =>
      have registered : (node.registerStream handle.cid 1 tx).circuits.get handle.cid =
          some (.origin handle.fwd handle.bwd handle.tag ⟨handle.cid, first.addr⟩ (streams.insert 1 tx)) := by
        simp only [Node.registerStream, entry, Table.get_insert_self]
      have number : (node.registerStream handle.cid 1 tx).seqOrigin = node.seqOrigin := by
        simp only [Node.registerStream, entry]
      have open' : ((streams.insert 1 tx).get 1).isSome := by
        rw [Table.get_insert_self]
        rfl
      obtain ⟨same, rfl⟩ := send_origin registered asked
      rw [number]
      exact .inl ⟨node', _, ⟨node.seqOrigin, .echo, 1, msg⟩, same ▸ registered, fun _ => open', fun _ => rfl,
        Nat.not_lt.mp short, rfl⟩
  | @sendData node node' effects msg stream present asked =>
    rw [Network.entryAt_of_get present] at entry
    simp only [Node.sendData] at asked
    split at asked
    · cases asked
    next short =>
      have data : echoes [⟨node.seqOrigin, .data, stream, msg⟩] = [] := rfl
      obtain ⟨same, rfl⟩ := send_origin entry asked
      refine .inl ⟨node', _, ⟨node.seqOrigin, .data, stream, msg⟩, same ▸ entry, ?_, (fun echo => by cases echo),
        Nat.not_lt.mp short, rfl⟩
      rwa [echoes_append, data, List.append_nil]
  | arrive => exact .inr (.inl ⟨_, rfl⟩)
  | elsewhere => exact .inr (.inr rfl)

theorem Going.step (laws : C.Lawful) (uniform : Uniform originAddr handle first rest) (going : k.Going originAddr handle first rest)
    {event : TalkEvent} (step : Step originAddr handle k event k') : k'.Going originAddr handle first rest := by
  rcases going.says step with ⟨node', streams, ask, stored, opened, onOne, short, rfl⟩ | ⟨p, rfl⟩ | rfl
  · exact going.say laws uniform stored opened onOne short
  · cases step with
    | arrive own step =>
      by_cases home : p.dst = originAddr
      · exact going.arrive_home laws uniform own home step
      · exact going.arrive laws uniform own home step
  · cases step with
    | elsewhere alone =>
      obtain ⟨streams, entry, opened⟩ := going.entry
      obtain ⟨back, load, flows, heard, few⟩ := going.flows
      exact
        { entry := ⟨streams, (alone.entries _).trans entry, opened⟩
          onOne := going.onOne
          fit := going.fit
          flows := ⟨back, load, flows.frame (fun a b _ => alone.links a b) fun hop _ => alone.entries hop.addr, heard, few⟩
          places := fun a b some => going.places a b (alone.links a b ▸ some) }

/-- A circuit that has just been built: all entries are in place, no hop has peeled a cell, and none is on its way. -/
structure Opened (originAddr : SocketAddr) (handle : CircuitHandle) (first : Hop) (rest : List Hop) (net : Network C) : Prop where
  uniform : Uniform originAddr handle first rest
  entry : ∃ streams, net.entryAt originAddr handle.cid =
    some (.origin handle.fwd handle.bwd handle.tag ⟨handle.cid, first.addr⟩ streams)
  installed : Installed net handle.tag originAddr (first :: rest)
  unused : ∀ hop ∈ first :: rest, hop.lastFwd = 0
  idle : ∀ a b, onLink handle.cid a b net.wire = []

def start (net : Network C) : Talk C := ⟨net, [], [], 0⟩

theorem Opened.flows {net : Network C} {cid : UInt32} {tag : Octets 16} (depth : Nat) {prev : SocketAddr} {hops : List Hop}
    (installed : Installed net tag prev hops) (cids : ∀ hop ∈ hops, hop.cid = cid) (unused : ∀ hop ∈ hops, hop.lastFwd = 0)
    (idle : ∀ a b, onLink cid a b net.wire = []) : Flows net cid tag depth prev hops [] [] 0 := by
  induction hops generalizing prev depth with
  | nil => exact .terminal depth prev []
  | cons hop rest ih =>
    have onward : Flows net cid tag (depth + 1) hop.addr rest [] [] 0 :=
      ih (depth + 1) installed.2 (fun h member => cids h (List.mem_cons_of_mem _ member))
      fun h member => unused h (List.mem_cons_of_mem _ member)
    refine .hop [] [] [] 0 (idle ..) ?_ rfl (idle ..) onward (by simp)
    have same : hop.peeled 0 = hop := by rw [← unused hop List.mem_cons_self]; rfl
    rw [same, ← cids hop List.mem_cons_self]
    exact installed.1

theorem Opened.going {net : Network C} (opened : Opened originAddr handle first rest net) :
    (start net).Going originAddr handle first rest := by
  obtain ⟨streams, entry⟩ := opened.entry
  have flows := Opened.flows 1 opened.installed opened.uniform.cids opened.unused opened.idle
  exact
    { entry := ⟨streams, entry, fun some => absurd rfl some⟩
      onOne := by simp [start, echoes]
      fit := by simp [Fit, start]
      flows := ⟨[], 0, flows, rfl, by simp [start]⟩
      places := fun a b some => absurd (opened.idle a b) some }

theorem Going.only (uniform : Uniform originAddr handle first rest) (going : k.Going originAddr handle first rest) {event : TalkEvent}
    (step : Step originAddr handle k event k') (here : event ≠ .elsewhere) (only : ∀ p ∈ k.net.wire, p.Own handle.cid) :
    ∀ p ∈ k'.net.wire, p.Own handle.cid := by
  intro q member
  rcases going.says step with ⟨node', streams, ask, -, -, -, -, rfl⟩ | ⟨p, rfl⟩ | rfl
  · rcases List.mem_append.mp member with before | sent
    · exact only q before
    · have sends := (of_mem_packetsOf sent).2
      rw [List.mem_singleton, Effect.sendCell.injEq] at sends
      rw [Packet.Own, sends.2]
      exact ⟨rfl, rfl⟩
  · cases step with
    | arrive own step =>
      obtain ⟨entry, stored, under⟩ : ∃ entry, k.net.entryAt p.dst handle.cid = some entry ∧ entry.Under handle.cid := by
        obtain ⟨streams, entry, -⟩ := going.entry
        obtain ⟨back, load, flows, -, -⟩ := going.flows
        rcases List.mem_cons.mp (going.adjacent own step).mem.2 with home | away
        · exact ⟨.origin _ _ _ ⟨handle.cid, first.addr⟩ streams, home ▸ entry, rfl⟩
        · obtain ⟨hop, member, addr⟩ := List.mem_map.mp away
          obtain ⟨entry, stored, -, under⟩ := flows.beside uniform.cids member
          exact ⟨entry, addr ▸ stored, under⟩
      obtain ⟨node, present, stored⟩ := Option.bind_eq_some_iff.mp stored
      cases step with
      | @deliver before after lookup wire _ =>
        simp only [Network.receive, present, Node.handleCell, own.2, Network.update, List.mem_append] at member
        rw [wire] at only
        rcases member with (early | late) | new
        · exact only q (by simp [early])
        · exact only q (by simp [late])
        · obtain ⟨-, relayed, kept⟩ := Node.handleRelay_sends (own.1 ▸ stored) (of_mem_packetsOf new).2
          exact ⟨kept _ under, relayed⟩
  · exact absurd rfl here

/-- With only the circuit's cells on the wire, they can arrive one by one until none is left. -/
theorem Going.settles (laws : C.Lawful) (uniform : Uniform originAddr handle first rest)
    (going : k.Going originAddr handle first rest) (only : ∀ p ∈ k.net.wire, p.Own handle.cid) :
    ∃ events t, Run (Step originAddr handle) k events t ∧ t.net.wire = [] ∧
      t.said = k.said ∧ t.Going originAddr handle first rest := by
  -- Every arrival uses up one of the steps that the asks may make at most.
  induction left : 2 * (first :: rest).length * k.said.length - k.arrivals using Nat.strong_induction_on generalizing k with
  | _ n ih =>
    cases wire : k.net.wire with
    | nil => exact ⟨[], k, .nil k, wire, rfl, going⟩
    | cons p later =>
      have own : p.Own handle.cid := only p (by simp [wire])
      have arrives : Network.Step k.net p (k.net.receive (fun _ => .error .timeout) p ([] ++ later)) :=
        .deliver _ wire (by simp)
      generalize k.net.receive (fun _ => .error .timeout) p ([] ++ later) = net' at arrives
      have step : Step originAddr handle k (.arrive p) _ := .arrive own arrives
      have going' := going.step laws uniform step
      obtain ⟨back, load, -, -, few⟩ := going'.flows
      dsimp only at few
      have only' := going.only uniform step nofun only
      obtain ⟨events, t, run, rest⟩ := ih _ (by dsimp only; omega) going' only' rfl
      exact ⟨_, t, run.cons step, rest⟩

/-- The origin's streams have been handed the messages of its echoes, of those that climb, once each and in the order in
which they were said, and of all of them when nothing is on its way; and no cell wanders. -/
structure Answered (cid : UInt32) (hops : Nat) (k : Talk C) : Prop where
  inOrder : k.heard <+: (echoes (climb Ask.number 0 k.said)).map Ask.msg
  all : (∀ a b, onLink cid a b k.net.wire = []) → k.heard = (echoes (climb Ask.number 0 k.said)).map Ask.msg
  bounded : k.arrivals ≤ 2 * hops * k.said.length

theorem Going.answered (going : k.Going originAddr handle first rest) : k.Answered handle.cid (first :: rest).length := by
  obtain ⟨back, load, flows, heard, few⟩ := going.flows
  refine ⟨?_, fun idle => ?_, by omega⟩
  · obtain ⟨more, whole⟩ := flows.back_prefix
    exact ⟨more.map Ask.msg, by rw [heard, ← whole, List.map_append]⟩
  · rw [heard, flows.back_of_idle idle]

theorem Opened.run (laws : C.Lawful) {net : Network C} (opened : Opened originAddr handle first rest net) {events : List TalkEvent}
    (run : Run (Step originAddr handle) (start net) events k) : k.Going originAddr handle first rest :=
  run.invariant (Going originAddr handle first rest) (fun _ _ _ going step => going.step laws opened.uniform step) opened.going

/-- Whatever is on its way, and whatever data cells and other circuits there are beside: where each link's cells are handled
in their order, the echoes that every hop accepts are answered in order, and every ask makes two steps for each hop at most. -/
theorem hears_echoes (laws : C.Lawful) {net : Network C} (opened : Opened originAddr handle first rest net) {events : List TalkEvent}
    (run : Run (Step originAddr handle) (start net) events k) : k.Answered handle.cid (first :: rest).length :=
  (opened.run laws run).answered

end Talk

namespace Transparent

open Nbf.Crypto.Transparent

theorem echo_opened : Talk.Opened (localhost 9000) echoHandle nearHop [farHop 1] (echoNet 1) where
  uniform :=
    { distinct := by decide
      cids := by simp [nearHop, farHop, echoHandle]
      short := by decide
      fwd := rfl
      bwd := rfl }
  entry := ⟨.empty, (Network.entryAt_of_get (echo_ready 1).present _).trans rfl⟩
  installed := (echo_ready 1).installed
  unused := by simp [nearHop, farHop]
  idle := fun _ _ => rfl

theorem three_asked : ∃ events k, Run (Talk.Step (localhost 9000) echoHandle) (Talk.start (echoNet 1)) events k ∧
    k.said = [⟨64, .echo, 1, [104, 105]⟩, ⟨65, .data, 0, [0]⟩, ⟨66, .echo, 1, [33]⟩] ∧
    ∀ p ∈ k.net.wire, p.Own echoHandle.cid := by
  have first : Talk.Step (localhost 9000) echoHandle (Talk.start (echoNet 1)) (.echo 7 [104, 105]) _ :=
    .echo (echo_ready 1).present rfl
  have second : Run (Talk.Step (localhost 9000) echoHandle) (Talk.start (echoNet 1)) [.echo 7 [104, 105], .sendData [0] 0] _ :=
    (Run.single first).snoc (.sendData (Table.get_insert_self ..) rfl)
  have third : Run (Talk.Step (localhost 9000) echoHandle) (Talk.start (echoNet 1))
      [.echo 7 [104, 105], .sendData [0] 0, .echo 8 [33]] _ := second.snoc (.echo (Table.get_insert_self ..) rfl)
  refine ⟨_, _, third, rfl, fun p member => ?_⟩
  simp only [Network.update, Talk.start, echoNet, List.nil_append, List.mem_append] at member
  obtain (sent | sent) | sent := member <;> obtain ⟨-, sends⟩ := of_mem_packetsOf sent <;>
    rw [Packet.Own, (Effect.sendCell.inj (List.mem_singleton.mp sends)).2] <;> exact ⟨rfl, rfl⟩

theorem both_echoes_heard : ∃ events k, Run (Talk.Step (localhost 9000) echoHandle) (Talk.start (echoNet 1)) events k ∧
    k.said.map Ask.rcmd = [.echo, .data, .echo] ∧ k.heard = [[104, 105], [33]] := by
  obtain ⟨events, k, run, asked, only⟩ := three_asked
  have going := echo_opened.run lawful run
  obtain ⟨later, k', settling, quiet, same, -⟩ := going.settles lawful echo_opened.uniform only
  have whole := run.trans settling
  have heard := (Talk.hears_echoes lawful echo_opened whole).all fun a b => by rw [quiet]; rfl
  rw [same, asked] at heard
  exact ⟨_, k', whole, by rw [same, asked]; rfl, heard⟩

end Transparent
end Nbf.Net

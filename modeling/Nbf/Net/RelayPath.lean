import Nbf.Library.Walk
import Nbf.Net.Circuit
import Nbf.Net.Onion

/-! A RELAY cell on its way along an installed circuit.

The forward cell finds every hop's entry under the cid the hop before it names,
and is peeled hop by hop. The reply keeps the cid the terminal's entry is stored
under on its whole way back.
-/

set_option autoImplicit false

namespace Nbf.Net

open Nbf.Library Nbf.Crypto

variable {C : Crates}

/-! ## Arrival of a RELAY cell -/

def relayPacket (src dst : SocketAddr) (cid : UInt32) (msg : RelayMsg) : Packet :=
  ⟨src, dst, ⟨cid, .relay, 0, relayPayload msg⟩⟩

namespace Network

def relayed (net : Network C) (src dst : SocketAddr) (cid : UInt32) (msg : RelayMsg) (rest : List Packet) : Network C :=
  net.receive (fun _ => .error .timeout) (relayPacket src dst cid msg) rest

theorem receive_relay (net : Network C) (lookup : Lookup) (src dst : SocketAddr) (cid : UInt32) (msg : RelayMsg)
    (rest : List Packet) : net.receive lookup (relayPacket src dst cid msg) rest = net.relayed src dst cid msg rest := rfl

theorem relayed_of_none {net : Network C} {dst : SocketAddr} {cid : UInt32} (none : net.entryAt dst cid = none)
    (src : SocketAddr) (msg : RelayMsg) (rest : List Packet) :
    (net.relayed src dst cid msg rest).wire = rest ∧ (net.relayed src dst cid msg rest).notices = net.notices := by
  cases present : net.nodes.get dst with
  | none => simp only [relayed, receive, relayPacket, present, and_self]
  | some node =>
    rw [entryAt_of_get present] at none
    simp [relayed, receive, relayPacket, present, Node.handleCell, Node.handleRelay, parseRelay_relayPayload, none,
      update]

theorem relayed_of_stored {net : Network C} {dst : SocketAddr} {cid : UInt32} {entry : CircuitEntry}
    (stored : net.entryAt dst cid = some entry) (src : SocketAddr) (msg : RelayMsg) (rest : List Packet) :
    (net.relayed src dst cid msg rest).wire = rest ++ packetsOf dst (relayDecide C entry src msg).effects ∧
      (net.relayed src dst cid msg rest).notices = net.notices ++ noticesOf dst (relayDecide C entry src msg).effects ∧
      ∀ a c, (net.relayed src dst cid msg rest).entryAt a c =
        if (a = dst ∧ c = cid) ∧ (relayDecide C entry src msg).accepted then some (entry.withLastFwd msg.seq)
        else net.entryAt a c := by
  obtain ⟨node, present, here⟩ := Option.bind_eq_some_iff.mp stored
  have result : net.relayed src dst cid msg rest = net.update dst
      { node with stats := { node.stats with relayed := node.stats.relayed + 1 },
                  circuits := (relayDecide C entry src msg).commit entry node.circuits cid msg.seq }
      (relayDecide C entry src msg).effects rest := by
    simp only [relayed, receive, relayPacket, present, Node.handleCell, Node.handleRelay, parseRelay_relayPayload, here]
  rw [result]
  refine ⟨rfl, rfl, fun a c => ?_⟩
  by_cases same : a = dst
  · subst same
    rw [entryAt_of_get (Table.get_insert_self ..), entryAt_of_get present, Decision.get_commit here]
    simp
  · rw [entryAt, update, Table.get_insert_of_ne _ _ same]
    simp [same, entryAt]

theorem forced_relay {net : Network C} {src dst : SocketAddr} {cid : UInt32} {msg : RelayMsg} {entry : CircuitEntry}
    (wire : net.wire = [relayPacket src dst cid msg]) (stored : net.entryAt dst cid = some entry) :
    ∃ next, Forced Step net next ∧ next.wire = packetsOf dst (relayDecide C entry src msg).effects ∧
      next.notices = net.notices ++ noticesOf dst (relayDecide C entry src msg).effects ∧
      ∀ a c, next.entryAt a c =
        if (a = dst ∧ c = cid) ∧ (relayDecide C entry src msg).accepted then some (entry.withLastFwd msg.seq)
        else net.entryAt a c := by
  obtain ⟨sent, notices, entries⟩ := relayed_of_stored stored src msg []
  exact ⟨_, forced_receive wire (by simp) (fun lookup => receive_relay net lookup src dst cid msg []) (.refl _), sent,
    notices, entries⟩

end Network

theorem packetsOf_relay (src dst : SocketAddr) (cid : UInt32) {msg : RelayMsg} (fits : 7 + msg.onion.length ≤ cellData) :
    packetsOf src [.sendCell dst ⟨cid, .relay, 0, relayPayload msg⟩] = [relayPacket src dst cid msg] :=
  packetsOf_send _ _ _ _ (by rw [length_relayPayload]; exact fits)

/-- A payload that does not fit fails the assertion of `encode`; nothing is sent. -/
theorem packetsOf_long (src dst : SocketAddr) (cid : UInt32) {msg : RelayMsg} (long : ¬ 7 + msg.onion.length ≤ cellData) :
    packetsOf src [.sendCell dst ⟨cid, .relay, 0, relayPayload msg⟩] = [] := by
  rw [← length_relayPayload] at long
  simp only [packetsOf, Cell.encode, dif_neg long, List.filterMap_cons, List.filterMap_nil]

/-! ## The way out -/

def Hop.peeled (seq : UInt32) (hop : Hop) : Hop := { hop with lastFwd := seq }

theorem Hop.withLastFwd_entry (tag : Octets 16) (prev : SocketAddr) (hop : Hop) (next : Option Hop) (seq : UInt32) :
    (hop.entry tag prev next).withLastFwd seq = (hop.peeled seq).entry tag prev (next.map (Hop.peeled seq)) := by
  cases next <;> rfl

def returnPacket (C : Crates) (tag : Octets 16) (seq : UInt32) (msg : List UInt8) : SocketAddr → Hop → List Hop → Packet
  | prev, hop, [] => relayPacket hop.addr prev hop.cid ⟨seq, .echo, 1, sealBwd C hop.kBwd tag seq msg⟩
  | _, hop, next :: rest => returnPacket C tag seq msg hop.addr next rest

section Decide

variable (laws : C.Lawful) (tag : Octets 16) (prev : SocketAddr) (hop : Hop) {seq : UInt32} (msg : List UInt8)
include laws

theorem relayDecide_out (rcmd : RCmd) (stream : UInt16) (next : Hop) (keys : List (Octets 32)) (above : hop.lastFwd < seq) :
    relayDecide C (hop.entry tag prev (some next)) prev ⟨seq, rcmd, stream, sealOnion C (hop.kFwd :: keys) tag seq msg⟩ =
      .accept (some (next.addr, ⟨next.cid, .relay, 0, relayPayload ⟨seq, rcmd, stream, sealOnion C keys tag seq msg⟩⟩)) := by
  simp only [Hop.entry, relayDecide, if_true, if_neg (UInt32.not_le.mpr above), openOnion_sealOnion laws]

theorem relayDecide_end (above : hop.lastFwd < seq) :
    relayDecide C (hop.entry tag prev none) prev ⟨seq, .echo, 1, sealOnion C [hop.kFwd] tag seq msg⟩ =
      .accept (some (prev, ⟨hop.cid, .relay, 0, relayPayload ⟨seq, .echo, 1, sealBwd C hop.kBwd tag seq msg⟩⟩)) := by
  simp only [Hop.entry, relayDecide, if_neg (terminal_passes above), openOnion_sealOnion laws]
  rfl

theorem relayDecide_end_accepts (rcmd : RCmd) (stream : UInt16) (above : hop.lastFwd < seq) :
    ∃ reply?, relayDecide C (hop.entry tag prev none) prev ⟨seq, rcmd, stream, sealOnion C [hop.kFwd] tag seq msg⟩ =
      .accept reply? := by
  simp only [Hop.entry, relayDecide, if_neg (terminal_passes above), openOnion_sealOnion laws]
  cases rcmd <;> exact ⟨_, rfl⟩

end Decide

theorem relayDecide_replay (tag : Octets 16) (prev : SocketAddr) {hop : Hop} {msg : RelayMsg} (next? : Option Hop)
    (replay : msg.seq ≤ hop.lastFwd) : relayDecide C (hop.entry tag prev next?) prev msg = .drop := by
  cases next? with
  | none => exact if_pos (.inr replay)
  | some next => exact (if_pos rfl).trans (if_pos replay)

namespace Network

theorem echo_out (laws : C.Lawful) {tag : Octets 16} {seq : UInt32} {msg : List UInt8} {net : Network C}
    {prev : SocketAddr} {hop : Hop} {rest : List Hop} (installed : Installed net tag prev (hop :: rest))
    (above : ∀ h ∈ hop :: rest, h.lastFwd < seq) (fits : 7 + (msg.length + 16 * (hop :: rest).length) ≤ cellData)
    (wire : net.wire = [relayPacket prev hop.addr hop.cid
      ⟨seq, .echo, 1, sealOnion C ((hop :: rest).map Hop.kFwd) tag seq msg⟩]) :
    ∃ final, Forced Step net final ∧ final.wire = [returnPacket C tag seq msg prev hop rest] ∧
      final.notices = net.notices ∧ Installed final tag prev ((hop :: rest).map (Hop.peeled seq)) ∧
      ∀ a c, (a, c) ∉ (hop :: rest).map Hop.slot → final.entryAt a c = net.entryAt a c := by
  -- Along the circuit: every hop takes one layer off and updates its own entry only.
  induction rest generalizing net prev hop with
  | nil =>
    obtain ⟨final, path, sent, notices, entries⟩ := forced_relay wire installed.1
    simp only [List.map_cons, List.map_nil, List.head?_nil, relayDecide_end laws tag prev hop msg (above hop List.mem_cons_self),
      Decision.effects, Decision.accepted, Option.toList_some, and_true] at sent notices entries
    refine ⟨final, path, ?_, by rw [notices]; simp [noticesOf], ⟨?_, trivial⟩, fun a c outside => ?_⟩
    · rw [sent]
      apply packetsOf_relay
      rw [length_sealBwd laws]
      simpa using fits
    · rw [entries, Hop.withLastFwd_entry]
      exact if_pos ⟨rfl, rfl⟩
    · rw [entries, if_neg]
      rintro ⟨rfl, rfl⟩
      simp [Hop.slot] at outside
  | cons next rest ih =>
    obtain ⟨mid, path, sent, notices, entries⟩ := forced_relay wire installed.1
    have decision := relayDecide_out laws tag prev hop msg .echo 1 next ((next :: rest).map Hop.kFwd) (above hop List.mem_cons_self)
    simp only [List.map_cons] at decision sent notices entries
    simp only [List.head?_cons, decision, Decision.effects, Decision.accepted, Option.toList_some, and_true,
      List.map_cons, List.map_nil] at sent notices entries
    have apart := installed.slot_apart
    have kept (h : Hop) (member : h ∈ next :: rest) (c : UInt32) (same : c = h.cid) :
        mid.entryAt h.addr c = net.entryAt h.addr c := by
      rw [entries, if_neg]
      rintro ⟨addr, cid⟩
      exact apart (List.mem_map.mpr ⟨h, member, Prod.ext addr (same.symm.trans cid)⟩)
    have onward : mid.wire = [relayPacket hop.addr next.addr next.cid
        ⟨seq, .echo, 1, sealOnion C ((next :: rest).map Hop.kFwd) tag seq msg⟩] := by
      rw [sent]
      apply packetsOf_relay
      simp only [length_sealOnion laws, List.length_cons, List.length_map] at fits ⊢
      omega
    obtain ⟨final, later, answer, silent, installed', frame⟩ := ih
      (installed.2.congr fun h member => kept h member h.cid rfl)
      (fun h member => above h (List.mem_cons_of_mem _ member)) (by simp only [List.length_cons] at fits ⊢; omega) onward
    refine ⟨final, path.trans later, answer, by rw [silent, notices]; simp [noticesOf], ⟨?_, installed'⟩, ?_⟩
    · apply (frame _ _ apart).trans
      rw [entries, Hop.withLastFwd_entry]
      exact if_pos ⟨rfl, rfl⟩
    · intro a c outside
      rw [List.map_cons, List.mem_cons, not_or] at outside
      rw [frame a c outside.2, entries, if_neg]
      rintro ⟨rfl, rfl⟩
      exact outside.1 rfl

end Network

/-! ## The way back -/

namespace Network

/-- Where every hop's entry lies under the cid the reply carries, the hops seal it in turn. -/
theorem echo_back (laws : C.Lawful) {tag : Octets 16} {seq : UInt32} {msg : List UInt8} {net : Network C}
    {prev : SocketAddr} {hop : Hop} {rest : List Hop} {cid : UInt32} (installed : Installed net tag prev (hop :: rest))
    (uniform : ∀ h ∈ hop :: rest, h.cid = cid) (apart : (prev, cid) ∉ (hop :: rest).map Hop.slot)
    (fits : 7 + (msg.length + 16 * (hop :: rest).length) ≤ cellData)
    (wire : net.wire = [returnPacket C tag seq msg prev hop rest]) :
    ∃ final, Forced Step net final ∧ final.wire = [relayPacket hop.addr prev cid
        ⟨seq, .echo, 1, replyOnion C ((hop :: rest).map Hop.kBwd) tag seq msg⟩] ∧
      final.notices = net.notices ∧ ∀ a c, final.entryAt a c = net.entryAt a c := by
  -- From the terminal back: the reply has passed the hops behind when it comes to this one.
  induction rest generalizing net prev hop with
  | nil =>
    rw [← uniform hop List.mem_cons_self]
    exact ⟨net, .refl net, wire, rfl, fun _ _ => rfl⟩
  | cons next rest ih =>
    have here : hop.cid = cid := uniform hop List.mem_cons_self
    have there : next.cid = cid := uniform next (List.mem_cons_of_mem _ List.mem_cons_self)
    obtain ⟨mid, path, arriving, silent, same⟩ := ih installed.2 (fun h member => uniform h (List.mem_cons_of_mem _ member))
      (here ▸ installed.slot_apart) (by simp only [List.length_cons] at fits ⊢; omega) wire
    have stored : mid.entryAt hop.addr cid = some (hop.entry tag prev (some next)) := by
      rw [same, ← here]
      exact installed.1
    -- The sender is the next hop, not the previous one: they would share a slot.
    have forth : next.addr ≠ prev := by
      rintro rfl
      refine apart (List.mem_cons_of_mem _ (List.mem_cons.mpr (.inl ?_)))
      rw [Hop.slot, there]
    have decision : relayDecide C (hop.entry tag prev (some next)) next.addr
        ⟨seq, .echo, 1, replyOnion C ((next :: rest).map Hop.kBwd) tag seq msg⟩ =
        .pass prev ⟨hop.cid, .relay, 0, relayPayload
          ⟨seq, .echo, 1, replyOnion C ((hop :: next :: rest).map Hop.kBwd) tag seq msg⟩⟩ := by
      simp only [Hop.entry, relayDecide, if_neg forth, if_true]
      rfl
    obtain ⟨final, last, sent, notices, entries⟩ := forced_relay arriving stored
    simp only [decision, Decision.effects, Decision.accepted, Bool.false_eq_true, and_false, if_false] at sent notices entries
    refine ⟨final, path.trans last, ?_, by rw [notices, silent]; simp [noticesOf], fun a c => (entries a c).trans (same a c)⟩
    rw [sent, here]
    apply packetsOf_relay
    simp only [length_replyOnion laws, List.length_cons, List.length_map] at fits ⊢
    omega

def back (net : Network C) (cid : UInt32) (addr : SocketAddr) : Option SocketAddr :=
  match net.entryAt addr cid with
  | some (.relay _ _ _ prev _ _) => some prev.peer
  | _ => none

/-- Every entry under `cid` takes a forward cell with this seq for a replay, and belongs to one circuit. -/
def Spent (net : Network C) (cid seq : UInt32) (originAddr : SocketAddr) (bwd : List (Octets 32)) (tag : Octets 16) : Prop :=
  ∀ addr entry, net.entryAt addr cid = some entry → match entry with
    | .origin _ bwd' tag' _ _ => addr = originAddr ∧ bwd' = bwd ∧ tag' = tag
    | .relay _ _ _ prev _ lastFwd => prev.cid = cid ∧ seq ≤ lastFwd
    | .terminal _ _ _ _ lastFwd => seq ≤ lastFwd

/-- A reply under `cid` that is alone on the wire and delivered later walks back to the origin and
gains one seal at each place on its way; and nothing is delivered later out of an empty wire. -/
def Traced (net : Network C) (cid seq : UInt32) (originAddr : SocketAddr) (bwd : List (Octets 32)) (tag : Octets 16)
    (tx : StreamTx) (msg : List UInt8) : Prop :=
  (net.wire = [] → (originAddr, .deliver tx msg) ∈ net.notices) ∧
    ∀ src dst onion, net.Spent cid seq originAddr bwd tag → (originAddr, .deliver tx msg) ∉ net.notices →
      net.wire = [relayPacket src dst cid ⟨seq, .echo, 1, onion⟩] →
      ∃ path sealed, Walk (net.back cid) dst path originAddr ∧ openBwdAll C bwd tag seq sealed = .ok msg ∧
        sealed.length = onion.length + 16 * path.length

theorem traced_before (laws : C.Lawful) {net next : Network C} {p : Packet} {cid seq : UInt32} {originAddr : SocketAddr}
    {bwd : List (Octets 32)} {tag : Octets 16} {tx : StreamTx} {msg : List UInt8} (step : Step net p next)
    (traced : next.Traced cid seq originAddr bwd tag tx msg) : net.Traced cid seq originAddr bwd tag tx msg := by
  refine ⟨fun empty => absurd step (quiet empty), fun src dst onion spent fresh wire => ?_⟩
  obtain ⟨lookup, rfl⟩ := step_single wire (by simp) step
  rw [receive_relay] at traced
  obtain ⟨rest, onward⟩ := traced
  cases stored : net.entryAt dst cid with
  | none =>
    obtain ⟨empty, silent⟩ := relayed_of_none stored src ⟨seq, .echo, 1, onion⟩ []
    exact absurd (silent ▸ rest empty) fresh
  | some entry =>
    obtain ⟨sent, notices, entries⟩ := relayed_of_stored stored src ⟨seq, .echo, 1, onion⟩ []
    rw [List.nil_append] at sent
    have kind := spent dst entry stored
    -- What is dropped here is never delivered.
    have halts (decision : relayDecide C entry src ⟨seq, .echo, 1, onion⟩ = .drop) : False := by
      rw [decision] at sent notices
      apply fresh
      have later := rest sent
      rwa [notices, Decision.effects, noticesOf_nil, List.append_nil] at later
    cases entry with
    | origin fwd bwd' tag' link streams =>
      obtain ⟨rfl, rfl, rfl⟩ := kind
      cases opened : openBwdAll C bwd' tag' seq onion with
      | ok data =>
        cases stream : streams.get 1 with
        | none => exact absurd (halts (by simp only [relayDecide, opened, stream])) id
        | some tx' =>
          have decision : relayDecide C (.origin fwd bwd' tag' link streams) src ⟨seq, .echo, 1, onion⟩ =
              .deliver tx' data := by
            simp only [relayDecide, opened, stream]
          rw [decision] at sent notices
          have later := rest sent
          rw [notices, List.mem_append] at later
          obtain ⟨rfl, rfl⟩ : tx = tx' ∧ msg = data := by simpa [Decision.effects, noticesOf] using later.resolve_left fresh
          exact ⟨[], onion, .done (by rw [back, stored]), opened, rfl⟩
      | error _ => exact absurd (halts (by simp only [relayDecide, opened])) id
      | panic => exact absurd (halts (by simp only [relayDecide, opened])) id
    | relay tag' kFwd kBwd prev link lastFwd =>
      by_cases forth : src = prev.peer
      · exact absurd (halts (by simp only [relayDecide, if_pos forth, if_pos kind.2])) id
      by_cases home : src = link.peer
      · let sealed := sealBwd C kBwd tag' seq onion
        have decision : relayDecide C (.relay tag' kFwd kBwd prev link lastFwd) src ⟨seq, .echo, 1, onion⟩ =
            .pass prev.peer ⟨cid, .relay, 0, relayPayload ⟨seq, .echo, 1, sealed⟩⟩ := by
          simp only [relayDecide, if_neg forth, if_pos home, kind.1, sealed]
        simp only [decision, Decision.effects, Decision.accepted, Bool.false_eq_true, and_false, if_false] at sent notices entries
        have silent : (net.relayed src dst cid ⟨seq, .echo, 1, onion⟩ []).notices = net.notices := by
          rw [notices]
          simp [noticesOf]
        by_cases fits : 7 + sealed.length ≤ cellData
        · rw [packetsOf_relay _ _ _ fits] at sent
          obtain ⟨path, inner, walk, opened, size⟩ := onward dst prev.peer sealed
            (fun addr entry here => spent addr entry ((entries addr cid).symm.trans here)) (silent ▸ fresh) sent
          have same : (net.relayed src dst cid ⟨seq, .echo, 1, onion⟩ []).back cid = net.back cid := by
            funext addr
            rw [back, back, entries]
          rw [same] at walk
          refine ⟨dst :: path, inner, .step (by rw [back, stored]) walk, opened, ?_⟩
          rw [size, length_sealBwd laws, List.length_cons]
          omega
        · rw [packetsOf_long _ _ _ fits] at sent
          exact absurd (silent ▸ rest sent) fresh
      · exact absurd (halts (by simp only [relayDecide, if_neg forth, if_neg home])) id
    | terminal tag' kFwd kBwd prev lastFwd =>
      apply absurd (halts ?_) id
      simp only [relayDecide, if_pos (Or.inr kind)]

/-- If a reply under `cid` is delivered, it has walked back to the origin. -/
theorem echo_traced (laws : C.Lawful) {net final : Network C} {labels : List Packet} {cid seq : UInt32}
    {originAddr : SocketAddr} {bwd : List (Octets 32)} {tag : Octets 16} {msg : List UInt8} {tx : StreamTx}
    (run : Run Step net labels final) (delivered : (originAddr, .deliver tx msg) ∈ final.notices) :
    net.Traced cid seq originAddr bwd tag tx msg :=
  run.induct_first ⟨fun _ => delivered, fun _ _ _ _ fresh => absurd delivered fresh⟩
    fun _ _ _ step => traced_before laws step

end Network

end Nbf.Net

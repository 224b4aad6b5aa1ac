import Nbf.Net.Build
import Nbf.Net.RelayPath

/-! Echo over an installed circuit: when the reply reaches the stream that waits for it. -/

set_option autoImplicit false

namespace Nbf.Net

open Nbf.Library Nbf.Crypto

variable {C : Crates}

/-! ## Where the reply has been -/

theorem returnPacket_last (tag : Octets 16) (seq : UInt32) (msg : List UInt8) (prev : SocketAddr) (hop : Hop)
    (rest : List Hop) : ∃ src dst before last, hop :: rest = before ++ [last] ∧
      returnPacket C tag seq msg prev hop rest =
        relayPacket src dst last.cid ⟨seq, .echo, 1, sealBwd C last.kBwd tag seq msg⟩ := by
  induction rest generalizing prev hop with
  | nil => exact ⟨hop.addr, prev, [], hop, rfl, rfl⟩
  | cons next rest ih =>
    obtain ⟨src, dst, before, last, split, same⟩ := ih hop.addr next
    exact ⟨src, dst, hop :: before, last, by rw [split, List.cons_append], same⟩

theorem returnPacket_peeled (tag : Octets 16) (seq seq' : UInt32) (msg : List UInt8) (prev : SocketAddr) (hop : Hop)
    (rest : List Hop) : returnPacket C tag seq msg prev (hop.peeled seq') (rest.map (Hop.peeled seq')) =
      returnPacket C tag seq msg prev hop rest := by
  induction rest generalizing prev hop with
  | nil => rfl
  | cons next rest ih => exact ih hop.addr next

/-- Under the cid of the last hop, no node stores anything but this circuit. -/
def NoForeign (net : Network C) (originAddr : SocketAddr) (cid : UInt32) (hops : List Hop) : Prop :=
  ∀ last, hops.getLast? = some last → ∀ addr, net.entryAt addr last.cid ≠ none →
    (addr, last.cid) = (originAddr, cid) ∨ (addr, last.cid) ∈ hops.map Hop.slot

/-- A reply that is delivered with exactly the message has been sealed as often as there are hops,
at different places; so every hop's entry lies under the cid it carries. -/
theorem uniform_of_delivered (laws : C.Lawful) (shorter : C.OpensShorter) {net final : Network C} {labels : List Packet}
    {tag : Octets 16} {originAddr : SocketAddr} {cid seq : UInt32} {hop : Hop} {rest : List Hop}
    {fwd bwd : List (Octets 32)} {next : HopLink} {streams : Table UInt16 StreamTx} {tx : StreamTx} {msg : List UInt8}
    (installed : Installed net tag originAddr (hop :: rest)) (peeled : ∀ h ∈ hop :: rest, h.lastFwd = seq)
    (origin : net.entryAt originAddr cid = some (.origin fwd bwd tag next streams)) (keys : bwd.length = (hop :: rest).length)
    (noForeign : NoForeign net originAddr cid (hop :: rest)) (wire : net.wire = [returnPacket C tag seq msg originAddr hop rest])
    (fresh : (originAddr, .deliver tx msg) ∉ net.notices) (run : Run Network.Step net labels final)
    (delivered : (originAddr, .deliver tx msg) ∈ final.notices) :
    ∃ c, ∀ h ∈ hop :: rest, h.cid = c := by
  obtain ⟨src, dst, before, last, split, answer⟩ := returnPacket_last (C := C) tag seq msg originAddr hop rest
  rw [answer] at wire
  rw [split] at installed peeled keys noForeign ⊢
  -- Every entry the reply can meet is the origin's or one of the hops'.
  have own (addr : SocketAddr) (entry : CircuitEntry) (here : net.entryAt addr last.cid = some entry) :
      (addr = originAddr ∧ entry = .origin fwd bwd tag next streams) ∨
        ∃ h prev later, (h ∈ before ∨ later = []) ∧ h.lastFwd = seq ∧ h.slot = (addr, last.cid) ∧
          entry = h.entry tag prev later.head? := by
    rcases noForeign last (by simp) addr (by simp [here]) with home | member
    · obtain ⟨rfl, same⟩ := Prod.mk.inj home
      rw [same, origin] at here
      exact .inl ⟨rfl, (Option.some.inj here).symm⟩
    · obtain ⟨h, member, slot⟩ := List.mem_map.mp member
      obtain ⟨front, prev, later, split', installed'⟩ := installed.at_mem member
      refine .inr ⟨h, prev, later, ?_, peeled h member, slot, ?_⟩
      · cases later with
        | nil => exact .inr rfl
        | cons more later =>
          have drop := congrArg List.dropLast split'
          rw [List.dropLast_concat, List.dropLast_append_of_ne_nil (by simp)] at drop
          exact .inl (drop ▸ by simp)
      · have same := installed'.1
        obtain ⟨addr, cid⟩ := Prod.mk.inj slot
        rw [addr, cid, here] at same
        exact Option.some.inj same
  have spent : net.Spent last.cid seq originAddr bwd tag := by
    intro addr entry here
    rcases own addr entry here with ⟨home, rfl⟩ | ⟨h, prev, later, -, replay, slot, rfl⟩
    · exact ⟨home, rfl, rfl⟩
    · have le : seq ≤ h.lastFwd := UInt32.le_of_eq replay.symm
      cases later with
      | nil => exact le
      | cons _ _ => exact ⟨congrArg Prod.snd slot, le⟩
  obtain ⟨path, sealed, walk, opened, size⟩ :=
    (Network.echo_traced laws run delivered).2 src dst (sealBwd C last.kBwd tag seq msg) spent fresh wire
  -- One seal is taken off for every key, so the lengths count the places passed.
  have walked : path.length = before.length := by
    have layers := length_openBwdAll shorter opened
    rw [length_sealBwd laws] at size
    rw [keys, List.length_append, List.length_singleton] at layers
    omega
  let passed := before.filter fun h => h.cid == last.cid
  have within : path ⊆ passed.map Hop.addr := by
    intro addr visited
    have goes := walk.next_isSome visited
    rw [Network.back] at goes
    split at goes
    · rename_i here
      rcases own addr _ here with ⟨-, same⟩ | ⟨h, prev, later, place, -, slot, same⟩
      · cases same
      · cases later with
        | nil => cases same
        | cons _ _ =>
          obtain ⟨rfl, cid⟩ := Prod.mk.inj slot
          have inner : h ∈ before := place.resolve_right (by simp)
          exact List.mem_map_of_mem (List.mem_filter.mpr ⟨inner, by simpa using cid⟩)
    · cases goes
  -- All places are different, so none of the hops is left out.
  have enough := walk.length_le within
  rw [List.length_map, walked] at enough
  have all := List.length_filter_eq_length_iff.mp (Nat.le_antisymm (List.length_filter_le _ before) enough)
  refine ⟨last.cid, fun h member => ?_⟩
  rcases List.mem_append.mp member with inner | final
  · simpa using all h inner
  · rw [List.mem_singleton.mp final]

/-! ## The echo -/

/-- A circuit ready for an echo: the entries as `handle_create` and `build_circuit` store them, with
any cids and peers, and a sequence number above every `last_fwd`. -/
structure EchoReady (net : Network C) (originAddr : SocketAddr) (origin : Node C) (handle : CircuitHandle)
    (first : Hop) (rest : List Hop) : Prop where
  present : net.nodes.get originAddr = some origin
  quiet : net.wire = []
  short : (first :: rest).length ≤ maxHops
  entry : ∃ streams, origin.circuits.get handle.cid =
    some (.origin handle.fwd handle.bwd handle.tag ⟨handle.cid, first.addr⟩ streams)
  link : first.cid = handle.cid
  installed : Installed net handle.tag originAddr (first :: rest)
  fwd : handle.fwd = (first :: rest).map Hop.kFwd
  bwd : handle.bwd = (first :: rest).map Hop.kBwd
  above : ∀ hop ∈ first :: rest, hop.lastFwd < origin.seqOrigin

/-- The echo has been sent and peeled by every hop; the terminal's reply is on the wire. -/
structure EchoOut (net sent peeled : Network C) (originAddr : SocketAddr) (origin : Node C) (handle : CircuitHandle)
    (first : Hop) (rest : List Hop) (tx : StreamTx) (msg : List UInt8) : Prop where
  path : Forced Network.Step sent peeled
  wire : peeled.wire = [returnPacket C handle.tag origin.seqOrigin msg originAddr first rest]
  notices : peeled.notices = net.notices
  installed : Installed peeled handle.tag originAddr ((first :: rest).map (Hop.peeled origin.seqOrigin))
  origin : ∃ streams : Table UInt16 StreamTx, peeled.entryAt originAddr handle.cid =
    some (.origin handle.fwd handle.bwd handle.tag ⟨handle.cid, first.addr⟩ (streams.insert 1 tx))
  elsewhere : ∀ addr c, (addr, c) ≠ (originAddr, handle.cid) → (addr, c) ∉ (first :: rest).map Hop.slot →
    peeled.entryAt addr c = net.entryAt addr c

theorem EchoReady.out (laws : C.Lawful) {net : Network C} {originAddr : SocketAddr} {origin : Node C}
    {handle : CircuitHandle} {first : Hop} {rest : List Hop}
    (ready : EchoReady net originAddr origin handle first rest) (tx : StreamTx) {msg : List UInt8}
    (short : msg.length ≤ msgMax) :
    ∃ node effects peeled, origin.echo handle tx msg = (node, effects, .ok ()) ∧
      EchoOut net (net.update originAddr node effects []) peeled originAddr origin handle first rest tx msg := by
  obtain ⟨streams, entry⟩ := ready.entry
  let cell : Cell := ⟨handle.cid, .relay, 0,
    relayPayload ⟨origin.seqOrigin, .echo, 1, sealOnion C handle.fwd handle.tag origin.seqOrigin msg⟩⟩
  let circuits := origin.circuits.insert handle.cid
    (.origin handle.fwd handle.bwd handle.tag ⟨handle.cid, first.addr⟩ (streams.insert 1 tx))
  let node : Node C := { origin with circuits, seqOrigin := origin.seqOrigin + 1 }
  have start : origin.echo handle tx msg = (node, [.sendCell first.addr cell], .ok ()) := by
    rw [Node.echo, if_neg (Nat.not_lt.mpr short)]
    simp only [Node.registerStream, entry, Node.send, Table.get_insert_self]
    rfl
  let sent := net.update originAddr node [.sendCell first.addr cell] []
  have entries (addr : SocketAddr) (c : UInt32) (other : (addr, c) ≠ (originAddr, handle.cid)) :
      sent.entryAt addr c = net.entryAt addr c := by
    by_cases home : addr = originAddr
    · subst home
      have away : c ≠ handle.cid := fun same => other (by rw [same])
      rw [Network.entryAt_of_get (Table.get_insert_self ..), Network.entryAt_of_get ready.present]
      exact Table.get_insert_of_ne _ _ away
    · rw [Network.entryAt, Network.entryAt, show sent.nodes.get addr = net.nodes.get addr from
        Table.get_insert_of_ne _ _ home]
  have before : net.entryAt originAddr handle.cid = _ := (Network.entryAt_of_get ready.present _).trans entry
  have apart := ready.installed.origin_apart before
  have after : sent.entryAt originAddr handle.cid =
      some (.origin handle.fwd handle.bwd handle.tag ⟨handle.cid, first.addr⟩ (streams.insert 1 tx)) := by
    rw [Network.entryAt_of_get (Table.get_insert_self ..)]
    exact Table.get_insert_self ..
  have installed : Installed sent handle.tag originAddr (first :: rest) := by
    refine ready.installed.congr fun hop member => entries _ _ fun same => apart ?_
    exact List.mem_map.mpr ⟨hop, member, same⟩
  have fits : 7 + (msg.length + 16 * (first :: rest).length) ≤ cellData := by
    have few := ready.short
    simp only [maxHops, msgMax, cellData, cellLen, cellHdr] at few short ⊢
    omega
  have wire : sent.wire = [relayPacket originAddr first.addr first.cid ⟨origin.seqOrigin, .echo, 1,
      sealOnion C ((first :: rest).map Hop.kFwd) handle.tag origin.seqOrigin msg⟩] := by
    rw [ready.link, ← ready.fwd]
    apply packetsOf_relay
    rw [length_sealOnion laws, ready.fwd, List.length_map]
    exact fits
  obtain ⟨peeled, path, answer, silent, installed', frame⟩ := Network.echo_out laws installed ready.above fits wire
  refine ⟨node, _, peeled, start, path, answer, ?_, installed', ⟨streams, ?_⟩, fun addr c other outside => ?_⟩
  · rw [silent]
    exact List.append_nil _
  · rw [frame _ _ apart, after]
  · rw [frame _ _ outside, entries _ _ other]

theorem map_slot_peeled (seq : UInt32) (hops : List Hop) : (hops.map (Hop.peeled seq)).map Hop.slot = hops.map Hop.slot := by
  rw [List.map_map]
  rfl

/-- With all entries under the origin's cid, every order of delivery ends with the message delivered. -/
theorem EchoReady.delivers (laws : C.Lawful) {net sent peeled : Network C} {originAddr : SocketAddr} {origin : Node C}
    {handle : CircuitHandle} {first : Hop} {rest : List Hop}
    (ready : EchoReady net originAddr origin handle first rest) {tx : StreamTx} {msg : List UInt8}
    (short : msg.length ≤ msgMax) (out : EchoOut net sent peeled originAddr origin handle first rest tx msg)
    (uniform : ∀ hop ∈ first :: rest, hop.cid = handle.cid) :
    ∃ final, Forced Network.Step sent final ∧ final.wire = [] ∧ (originAddr, .deliver tx msg) ∈ final.notices := by
  obtain ⟨streams, home⟩ := out.origin
  have fits : 7 + (msg.length + 16 * ((first :: rest).map (Hop.peeled origin.seqOrigin)).length) ≤ cellData := by
    have few := ready.short
    simp only [maxHops, msgMax, cellData, cellLen, cellHdr, List.length_map] at few short ⊢
    omega
  have wire := out.wire
  rw [← returnPacket_peeled _ _ origin.seqOrigin] at wire
  have uniform' : ∀ hop ∈ (first :: rest).map (Hop.peeled origin.seqOrigin), hop.cid = handle.cid := by
    intro hop member
    obtain ⟨before, inHops, rfl⟩ := List.mem_map.mp member
    exact uniform before inHops
  obtain ⟨mid, path, arriving, silent, same⟩ := Network.echo_back laws out.installed uniform'
    (out.installed.origin_apart home) fits wire
  have keys : ((first :: rest).map (Hop.peeled origin.seqOrigin)).map Hop.kBwd = handle.bwd := by
    rw [ready.bwd, List.map_map]
    rfl
  rw [← List.map_cons, keys] at arriving
  obtain ⟨final, last, sent, notices, -⟩ := Network.forced_relay arriving ((same _ _).trans home)
  simp only [relayDecide, openBwdAll_replyOnion laws, Table.get_insert_self, Decision.effects] at sent notices
  exact ⟨final, out.path.trans (path.trans last), sent, by rw [notices]; simp [noticesOf]⟩

/-- Without entries of other circuits under the terminal's cid, the message is delivered only when
all entries lie under the origin's cid. -/
theorem EchoReady.uniform (laws : C.Lawful) (shorter : C.OpensShorter) {net sent peeled final : Network C}
    {originAddr : SocketAddr} {origin : Node C} {handle : CircuitHandle} {first : Hop} {rest : List Hop}
    (ready : EchoReady net originAddr origin handle first rest) {tx : StreamTx} {msg : List UInt8}
    (out : EchoOut net sent peeled originAddr origin handle first rest tx msg)
    (noForeign : NoForeign net originAddr handle.cid (first :: rest)) (fresh : (originAddr, .deliver tx msg) ∉ net.notices)
    {labels : List Packet} (run : Run Network.Step sent labels final)
    (delivered : (originAddr, .deliver tx msg) ∈ final.notices) : ∀ hop ∈ first :: rest, hop.cid = handle.cid := by
  have fresh' : (originAddr, Effect.deliver tx msg) ∉ peeled.notices := out.notices ▸ fresh
  -- The delivery lies behind the way out, on which nothing is delivered.
  obtain ⟨later, onward⟩ : ∃ later, Run Network.Step peeled later final := by
    rcases out.path.run_through run with past | early
    · exact past
    · obtain ⟨labels, rest⟩ := early.toRun
      have still := rest.invariant (fun net => (originAddr, Effect.deliver tx msg) ∈ net.notices)
        (fun _ _ _ before step => Network.notices_grow before step) delivered
      exact absurd still fresh'
  obtain ⟨streams, home⟩ := out.origin
  have wire := out.wire
  rw [← returnPacket_peeled _ _ origin.seqOrigin] at wire
  have alone : NoForeign peeled originAddr handle.cid
      (first.peeled origin.seqOrigin :: rest.map (Hop.peeled origin.seqOrigin)) := by
    intro last isLast addr stored
    rw [← List.map_cons, List.getLast?_map, Option.map_eq_some_iff] at isLast
    obtain ⟨last, isLast, rfl⟩ := isLast
    rw [← List.map_cons, map_slot_peeled]
    by_cases atHome : (addr, last.cid) = (originAddr, handle.cid)
    · exact .inl atHome
    by_cases member : (addr, last.cid) ∈ (first :: rest).map Hop.slot
    · exact .inr member
    · exact noForeign last isLast addr ((out.elsewhere addr last.cid atHome member) ▸ stored)
  obtain ⟨cid, uniform⟩ := uniform_of_delivered laws shorter out.installed
    (by simp [Hop.peeled]) home (by rw [ready.bwd]; simp) alone wire fresh' onward delivered
  have here (hop : Hop) (member : hop ∈ first :: rest) : hop.cid = cid :=
    uniform (hop.peeled origin.seqOrigin) (List.mem_map_of_mem member)
  intro hop member
  rw [here hop member, ← ready.link, here first List.mem_cons_self]

/-- An echo over an installed circuit. Every hop peels the forward cell, in every order of delivery.
If all entries lie under the origin's cid, every run comes to rest with the message delivered to the
origin's stream; and this is the only case, as long as no node stores another circuit's entry under
the cid the terminal answers with. -/
theorem echo_delivered_iff (laws : C.Lawful) (shorter : C.OpensShorter) (net : Network C) (originAddr : SocketAddr)
    (origin : Node C) (handle : CircuitHandle) (first : Hop) (rest : List Hop)
    (ready : EchoReady net originAddr origin handle first rest) (tx : StreamTx) (msg : List UInt8)
    (short : msg.length ≤ msgMax) (fresh : (originAddr, .deliver tx msg) ∉ net.notices) :
    ∃ node effects, origin.echo handle tx msg = (node, effects, .ok ()) ∧
      (∃ labels peeled, Run Network.Step (net.update originAddr node effects []) labels peeled ∧
        Installed peeled handle.tag originAddr ((first :: rest).map (Hop.peeled origin.seqOrigin))) ∧
      ((∀ hop ∈ first :: rest, hop.cid = handle.cid) →
        ∃ labels final, Run Network.Step (net.update originAddr node effects []) labels final ∧ final.wire = [] ∧
          (originAddr, .deliver tx msg) ∈ final.notices ∧
          ∀ labels other, Run Network.Step (net.update originAddr node effects []) labels other → other.wire = [] →
            other = final) ∧
      (NoForeign net originAddr handle.cid (first :: rest) →
        ((∃ labels final, Run Network.Step (net.update originAddr node effects []) labels final ∧
          (originAddr, .deliver tx msg) ∈ final.notices) ↔ ∀ hop ∈ first :: rest, hop.cid = handle.cid)) := by
  obtain ⟨node, effects, peeled, start, out⟩ := ready.out laws tx short
  obtain ⟨outward, run⟩ := out.path.toRun
  refine ⟨node, effects, start, ⟨outward, peeled, run, out.installed⟩, fun uniform => ?_, fun noForeign => ⟨?_, ?_⟩⟩
  · obtain ⟨final, path, empty, delivered⟩ := ready.delivers laws short out uniform
    obtain ⟨labels, run⟩ := path.toRun
    exact ⟨labels, final, run, empty, delivered, fun _ _ other stuck =>
      path.run_ends (fun _ _ => Network.quiet empty) other fun _ _ => Network.quiet stuck⟩
  · rintro ⟨labels, final, run, delivered⟩
    exact ready.uniform laws shorter out noForeign fresh run delivered
  · intro uniform
    obtain ⟨final, path, -, delivered⟩ := ready.delivers laws short out uniform
    obtain ⟨labels, run⟩ := path.toRun
    exact ⟨labels, final, run, delivered⟩

namespace Transparent

open Nbf.Crypto.Transparent

def nearHop : Hop := ⟨localhost 9100, 1, .replicate 32 1, .replicate 32 2, 0⟩
def farHop (cid : UInt32) : Hop := ⟨localhost 9101, cid, .replicate 32 3, .replicate 32 4, 0⟩

def echoHandle : CircuitHandle :=
  ⟨1, [.replicate 32 1, .replicate 32 3], [.replicate 32 2, .replicate 32 4], .zeros 16⟩

def echoOrigin : Node crates :=
  let entry := .origin echoHandle.fwd echoHandle.bwd echoHandle.tag ⟨1, localhost 9100⟩ .empty
  { node 50 1 with circuits := Table.empty.insert 1 entry }

def echoNet (cid : UInt32) : Network crates where
  nodes := ((Table.empty.insert (localhost 9000) echoOrigin).insert (localhost 9100)
    { node 1 cid with circuits := Table.empty.insert 1 (nearHop.entry (.zeros 16) (localhost 9000) (some (farHop cid))) }).insert
    (localhost 9101) { node 20 0 with circuits := Table.empty.insert cid ((farHop cid).entry (.zeros 16) (localhost 9100) none) }
  wire := []
  notices := []

theorem echo_ready (cid : UInt32) :
    EchoReady (echoNet cid) (localhost 9000) echoOrigin echoHandle nearHop [farHop cid] where
  present := by
    rw [echoNet, Table.get_insert_of_ne _ _ (localhost_ne (by decide)), Table.get_insert_of_ne _ _ (localhost_ne (by decide)),
      Table.get_insert_self]
  quiet := rfl
  short := by simp [maxHops]
  entry := ⟨.empty, rfl⟩
  link := rfl
  installed := by
    refine ⟨?_, ?_, trivial⟩
    · rw [Network.entryAt, echoNet, nearHop, Table.get_insert_of_ne _ _ (localhost_ne (by decide)), Table.get_insert_self]
      rfl
    · rw [Network.entryAt, echoNet, farHop, Table.get_insert_self]
      exact Table.get_insert_self ..
  fwd := rfl
  bwd := rfl
  above := by
    simp only [List.forall_mem_cons]
    exact ⟨by decide, by change (0 : UInt32) < 64; decide, by simp⟩

theorem echo_delivered : ∃ node effects, echoOrigin.echo echoHandle 7 [104, 105] = (node, effects, .ok ()) ∧
    ∃ labels final, Run Network.Step ((echoNet 1).update (localhost 9000) node effects []) labels final ∧
      (localhost 9000, .deliver 7 [104, 105]) ∈ final.notices := by
  obtain ⟨node, effects, start, -, uniform, -⟩ :=
    echo_delivered_iff lawful opensShorter (echoNet 1) (localhost 9000) echoOrigin echoHandle nearHop [farHop 1]
      (echo_ready 1) 7 [104, 105] (by decide) (by simp [echoNet])
  obtain ⟨labels, final, run, -, delivered, -⟩ := uniform (by simp [nearHop, farHop, echoHandle])
  exact ⟨node, effects, start, labels, final, run, delivered⟩

/-- The terminal's entry lies under another cid than the origin's, and no run delivers the echo. -/
theorem skewed_echo_lost : EchoReady (echoNet 2) (localhost 9000) echoOrigin echoHandle nearHop [farHop 2] ∧
    ∃ node effects, echoOrigin.echo echoHandle 7 [104, 105] = (node, effects, .ok ()) ∧
      ∀ labels final, Run Network.Step ((echoNet 2).update (localhost 9000) node effects []) labels final →
        (localhost 9000, .deliver 7 [104, 105]) ∉ final.notices := by
  have short : [(104 : UInt8), 105].length ≤ msgMax := by decide
  obtain ⟨node, effects, peeled, start, out⟩ := (echo_ready 2).out lawful 7 short
  refine ⟨echo_ready 2, node, effects, start, fun labels final run delivered => ?_⟩
  have alone : NoForeign (echoNet 2) (localhost 9000) echoHandle.cid [nearHop, farHop 2] := by
    intro last isLast addr stored
    obtain rfl : farHop 2 = last := by simpa using isLast
    by_cases far : addr = localhost 9101
    · exact .inr (by simp [Hop.slot, farHop, far])
    refine absurd ?_ stored
    have two : (farHop 2).cid ≠ 1 := by decide
    rw [Network.entryAt, echoNet, Table.get_insert_of_ne _ _ far]
    by_cases near : addr = localhost 9100
    · rw [near, Table.get_insert_self, Option.bind_some, Table.get_insert_of_ne _ _ two, Table.get_empty]
    rw [Table.get_insert_of_ne _ _ near]
    by_cases home : addr = localhost 9000
    · rw [home, Table.get_insert_self, Option.bind_some, echoOrigin, Table.get_insert_of_ne _ _ two, Table.get_empty]
    · rw [Table.get_insert_of_ne _ _ home, Table.get_empty, Option.bind_none]
  have uniform := (echo_ready 2).uniform lawful opensShorter out alone (by simp [echoNet]) run delivered (farHop 2) (by simp)
  exact absurd uniform (by decide)

end Transparent
end Nbf.Net

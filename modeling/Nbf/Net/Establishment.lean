import Nbf.Crypto.SphinxAgreement
import Nbf.Net.Circuit
import Nbf.Net.Fragments

/-! Establishing a circuit.

CREATE goes out fragment by fragment and hop by hop, and always installs the
circuit. CREATED comes back under the cid each relay allocated for its next hop,
while the relay stores its entry under the cid of its previous hop; the answer
passes a relay only where these two coincide.
-/

set_option autoImplicit false

namespace Nbf.Net

open Nbf.Library Nbf.Crypto

variable {C : Crates}

/-! ## One hop -/

theorem Node.gather_held (node : Node C) {header : List UInt8} (numbered : Numbered header) (cid : UInt32) {S : Finset Nat}
    (within : S ⊆ Finset.range (fragCount header).toNat)
    (buffer : (node.createFrags.get cid).getD (.fresh (fragCount header)) = held header S)
    {j : Nat} (lt : j < (fragCount header).toNat) {frag : List UInt8} (frag_j : (fragment header)[j]? = some frag) :
    node.gather ⟨cid, .create, 0, frag⟩ =
      if insert j S = Finset.range (fragCount header).toNat then (some header, node.createFrags.remove cid)
      else (none, node.createFrags.insert cid (held header (insert j S))) := by
  rw [getElem?_fragment lt, Option.some.injEq] at frag_j
  subst frag_j
  rw [Node.gather]
  simp only [parseFrag_fragment, reassemble_held numbered within buffer lt]

theorem Node.gather_fragment (node : Node C) {header : List UInt8} (numbered : Numbered header) (cid : UInt32)
    {j : Nat} (lt : j < (fragCount header).toNat)
    (buffer : (node.createFrags.get cid).getD (.fresh (fragCount header)) = held header (Finset.range j))
    {frag : List UInt8} (frag_j : (fragment header)[j]? = some frag) :
    node.gather ⟨cid, .create, 0, frag⟩ =
      if j + 1 = (fragCount header).toNat then (some header, node.createFrags.remove cid)
      else (none, node.createFrags.insert cid (held header (Finset.range (j + 1)))) := by
  have within : Finset.range j ⊆ Finset.range (fragCount header).toNat := Finset.range_mono (Nat.le_of_lt lt)
  have full : Finset.range (j + 1) = Finset.range (fragCount header).toNat ↔ j + 1 = (fragCount header).toNat :=
    ⟨fun same => by simpa using congrArg Finset.card same, fun same => by rw [same]⟩
  rw [node.gather_held numbered cid within buffer lt frag_j]
  simp only [← Finset.range_add_one, full]

/-- The lookup a relay makes for the next hop's link key shows in no cell. -/
theorem Network.update_completeCreate (net : Network C) (dst : SocketAddr) (node : Node C) (lookup lookup' : Lookup)
    (src : SocketAddr) (cid : UInt32) (outcome : ProcessOutcome) (rest : List Packet) :
    net.update dst (node.completeCreate lookup src cid outcome).1 (node.completeCreate lookup src cid outcome).2 rest =
      net.update dst (node.completeCreate lookup' src cid outcome).1
        (node.completeCreate lookup' src cid outcome).2 rest := by
  cases outcome <;> rfl

def Network.created (net : Network C) (dst : SocketAddr) (node : Node C) (src : SocketAddr) (cid : UInt32)
    (outcome : ProcessOutcome) : Network C :=
  let complete := { node with createFrags := node.createFrags.remove cid }.completeCreate (fun _ => .error .timeout)
    src cid outcome
  net.update dst complete.1 complete.2 []

def createPacket (src dst : SocketAddr) (cid : UInt32) (frag : List UInt8) : Packet := ⟨src, dst, ⟨cid, .create, 0, frag⟩⟩

theorem Network.forced_create {net last : Network C} {node : Node C} {src dst : SocketAddr} {cid : UInt32}
    {header : List UInt8} {outcome : ProcessOutcome} (numbered : Numbered header)
    (peeled : processHeader C node.identity header = .ok outcome) {j : Nat} (lt : j < (fragCount header).toNat)
    (present : net.nodes.get dst = some node)
    (buffer : (node.createFrags.get cid).getD (.fresh (fragCount header)) = held header (Finset.range j))
    (wire : net.wire = ((fragment header).drop j).map (createPacket src dst cid))
    (path : Forced Step (net.created dst node src cid outcome) last) : Forced Step net last := by
  -- On the number of fragments that are still to come.
  obtain ⟨k, left⟩ := Nat.exists_eq_add_of_lt lt
  induction k generalizing j net node with
  | zero =>
    obtain ⟨frag, frag_j⟩ : ∃ frag, (fragment header)[j]? = some frag := ⟨_, getElem?_fragment lt⟩
    have tail : (fragment header).drop (j + 1) = [] := List.drop_of_length_le (by rw [length_fragment]; omega)
    rw [drop_eq_cons frag_j, tail, List.map_cons, List.map_nil] at wire
    refine forced_receive wire (by simp) (fun lookup => ?_) path
    have completed := Node.gather_fragment node numbered cid lt buffer frag_j
    rw [if_pos (by omega)] at completed
    simp only [createPacket, receive, present, Node.handleCell, Node.handleCreate, completed, peeled]
    exact update_completeCreate ..
  | succ k ih =>
    obtain ⟨frag, frag_j⟩ : ∃ frag, (fragment header)[j]? = some frag := ⟨_, getElem?_fragment lt⟩
    rw [drop_eq_cons frag_j, List.map_cons] at wire
    let rest := ((fragment header).drop (j + 1)).map (createPacket src dst cid)
    let buffered : Node C :=
      { node with createFrags := node.createFrags.insert cid (held header (Finset.range (j + 1))) }
    have stored := Node.gather_fragment node numbered cid lt buffer frag_j
    rw [if_neg (by omega)] at stored
    have result (lookup : Lookup) : net.receive lookup (createPacket src dst cid frag) rest =
        net.update dst buffered [] rest := by
      simp only [createPacket, receive, present, Node.handleCell, Node.handleCreate, stored, buffered]
    have oneLink : ∀ r ∈ rest, r.src = src ∧ r.dst = dst := by
      intro r member
      obtain ⟨frag, -, rfl⟩ := List.mem_map.mp member
      exact ⟨rfl, rfl⟩
    have same : (net.update dst buffered [] rest).created dst buffered src cid outcome =
        net.created dst node src cid outcome := by
      simp [created, update, buffered]
    have here : (net.update dst buffered [] rest).nodes.get dst = some buffered := Table.get_insert_self ..
    have more : j + 1 < (fragCount header).toNat := by omega
    have peels : processHeader C buffered.identity header = .ok outcome := peeled
    exact forced_receive wire oneLink result
      (ih peels more here (by simp [buffered]) (by simp [update, rest]) (same ▸ path) (by omega))

def createdPacket (dst src : SocketAddr) (cid : UInt32) : Packet := ⟨dst, src, ⟨cid, .created, 0, []⟩⟩

theorem packetsOf_created (dst src : SocketAddr) (cid : UInt32) :
    packetsOf dst [.sendCell src ⟨cid, .created, 0, []⟩] = [createdPacket dst src cid] :=
  packetsOf_send _ _ _ _ (Nat.zero_le _)

theorem packetsOf_fragments (src dst : SocketAddr) (cid : UInt32) (frags : List (List UInt8))
    (fits : ∀ frag ∈ frags, frag.length ≤ cellData) :
    packetsOf src (frags.map fun frag => .sendCell dst ⟨cid, .create, 0, frag⟩) =
      frags.map (createPacket src dst cid) := by
  induction frags with
  | nil => rfl
  | cons frag rest ih =>
    rw [List.map_cons, packetsOf_send _ _ _ _ (fits frag List.mem_cons_self),
      ih fun later member => fits later (List.mem_cons_of_mem _ member)]
    rfl

theorem noticesOf_fragments (src dst : SocketAddr) (cid : UInt32) (frags : List (List UInt8)) :
    noticesOf src (frags.map fun frag => .sendCell dst ⟨cid, .create, 0, frag⟩) = [] := by
  induction frags with
  | nil => rfl
  | cons frag rest ih => exact ih

theorem Network.created_terminal (net : Network C) (dst : SocketAddr) (node : Node C) (src : SocketAddr) (cid : UInt32)
    (tag : Octets 16) (kFwd kBwd : Octets 32) :
    ∃ node', net.created dst node src cid (.terminal tag kFwd kBwd) =
        ⟨net.nodes.insert dst node', [createdPacket dst src cid], net.notices⟩ ∧
      node'.circuits = node.circuits.insert cid (.terminal tag kFwd kBwd ⟨cid, src⟩ 0) := by
  refine ⟨({ node with createFrags := node.createFrags.remove cid }.completeCreate (fun _ => .error .timeout) src cid
    (.terminal tag kFwd kBwd)).1, ?_, rfl⟩
  simp only [created, Node.completeCreate, update, packetsOf_created]
  simp [noticesOf]

theorem Network.created_relay (net : Network C) (dst : SocketAddr) (node : Node C) (src : SocketAddr) (cid : UInt32)
    (tag : Octets 16) (kFwd kBwd : Octets 32) (nextId : NodeId) (nextAddr : SocketAddr) (newHeader : List UInt8) :
    ∃ node', net.created dst node src cid (.relay tag kFwd kBwd nextId nextAddr newHeader) =
        ⟨net.nodes.insert dst node', (fragment newHeader).map (createPacket dst nextAddr node.nextCid), net.notices⟩ ∧
      node'.circuits =
        node.circuits.insert cid (.relay tag kFwd kBwd ⟨cid, src⟩ ⟨node.nextCid, nextAddr⟩ 0) ∧
      node'.pending = node.pending := by
  refine ⟨({ node with createFrags := node.createFrags.remove cid }.completeCreate (fun _ => .error .timeout) src cid
    (.relay tag kFwd kBwd nextId nextAddr newHeader)).1, ?_, rfl, rfl⟩
  have sent := packetsOf_fragments dst nextAddr node.nextCid (fragment newHeader) (length_fragment_le newHeader)
  have silent := noticesOf_fragments dst nextAddr node.nextCid (fragment newHeader)
  simp only [created, Node.completeCreate, Node.newCid, update, List.nil_append]
  rw [← sent]
  simp only [packetsOf, noticesOf, List.filterMap_cons] at silent ⊢
  rw [silent, List.append_nil]

/-- CREATED reaches a relay under the cid of its next hop; the relay looks for a pending wait and
for an entry under that cid. -/
theorem Network.forced_created {net : Network C} {node : Node C} {src dst nextAddr : SocketAddr} {cid ncid : UInt32}
    {tag : Octets 16} {kFwd kBwd : Octets 32} {next : HopLink} {lastFwd : UInt32}
    (present : net.nodes.get dst = some node)
    (entry : node.circuits = Table.empty.insert cid (.relay tag kFwd kBwd ⟨cid, src⟩ next lastFwd))
    (wire : net.wire = [createdPacket nextAddr dst ncid]) :
    ∃ final, Forced Step net final ∧
      final.wire = (if (node.pending.get ncid).isNone && ncid == cid then [createdPacket dst src cid] else []) ∧
      (∀ addr ≠ dst, final.nodes.get addr = net.nodes.get addr) ∧
      (∀ c, final.entryAt dst c = net.entryAt dst c) ∧
      ∃ extra, final.notices = net.notices ++ extra ∧ ∀ notice ∈ extra, notice.1 = dst := by
  have received (mid : Network C) (result : ∀ lookup, net.receive lookup (createdPacket nextAddr dst ncid) [] = mid) :
      Forced Step net mid := forced_receive wire (by simp) result (.refl mid)
  have stored (node' : Node C) (same : node'.circuits = node.circuits) (c : UInt32)
      (mid : Network C) (nodes : mid.nodes = net.nodes.insert dst node') : mid.entryAt dst c = net.entryAt dst c := by
    have here : mid.nodes.get dst = some node' := by rw [nodes, Table.get_insert_self]
    rw [entryAt_of_get present, entryAt_of_get here, same]
  cases waiting : node.pending.get ncid with
  | some tx =>
    let woken : Node C := { node with pending := node.pending.remove ncid }
    refine ⟨net.update dst woken [.resolve tx] [], received _ fun lookup => ?_, by simp [update, packetsOf],
      fun addr other => Table.get_insert_of_ne _ _ other, fun c => stored woken rfl c _ rfl,
      [(dst, .resolve tx)], rfl, by simp⟩
    simp only [createdPacket, receive, present, Node.handleCell, Node.handleCreated, waiting, woken]
  | none =>
    by_cases same : ncid = cid
    · subst same
      refine ⟨net.update dst node [.sendCell src ⟨ncid, .created, 0, []⟩] [], received _ fun lookup => ?_, ?_,
        fun addr other => Table.get_insert_of_ne _ _ other, fun c => stored _ rfl c _ rfl, [], rfl, by simp⟩
      · simp only [createdPacket, receive, present, Node.handleCell, Node.handleCreated, waiting, entry,
          Table.get_insert_self]
      · simp [update, packetsOf_created]
    · refine ⟨net.update dst node [] [], received _ fun lookup => ?_, by simp [update, same],
        fun addr other => Table.get_insert_of_ne _ _ other, fun c => stored _ rfl c _ rfl, [], rfl, by simp⟩
      simp only [createdPacket, receive, present, Node.handleCell, Node.handleCreated, waiting, entry,
        Table.get_insert_of_ne _ _ same, Table.get_empty]

/-! ## The route -/

/-- A node on the route before the build: no circuit, no CREATE half received. -/
structure Idle (net : Network C) (hop : SocketAddr × Node C) : Prop where
  present : net.nodes.get hop.1 = some hop.2
  circuits : hop.2.circuits = .empty
  createFrags : hop.2.createFrags = .empty

/-- Whether CREATED passes every relay behind the first hop's inbound cid. -/
def answers : List (SocketAddr × Node C) → UInt32 → Bool
  | (_, node) :: next :: rest, cid =>
    answers (next :: rest) node.nextCid && ((node.pending.get node.nextCid).isNone && node.nextCid == cid)
  | _, _ => true

/-- What the hops of a route store: each relay names its next cid itself. -/
def storedHops : UInt32 → List (SocketAddr × Node C) → List (Octets 32 × Octets 32) → List Hop
  | cid, (addr, node) :: rest, (kFwd, kBwd) :: keys =>
    ⟨addr, cid, kFwd, kBwd, 0⟩ :: storedHops node.nextCid rest keys
  | _, _, _ => []

theorem storedHops_addr {cid : UInt32} {hops : List (SocketAddr × Node C)} {keys : List (Octets 32 × Octets 32)}
    {hop : Hop} (member : hop ∈ storedHops cid hops keys) : hop.addr ∈ hops.map Prod.fst := by
  induction hops generalizing cid keys with
  | nil => simp [storedHops] at member
  | cons here rest ih =>
    cases keys with
    | nil => simp [storedHops] at member
    | cons key keys =>
      rw [storedHops, List.mem_cons] at member
      rw [List.map_cons, List.mem_cons]
      rcases member with rfl | later
      · exact .inl rfl
      · exact .inr (ih later)

theorem Plan.numbered_header (laws : C.Lawful) (tag : Octets 16) (acc : C.Scalar) {plan : List (Plan C)}
    (few : plan.length < 256) : Numbered (Plan.header tag acc plan) := by
  rw [Numbered, Plan.length_header laws]
  simp only [hdrFixed, layerLen, layerInfoLen, ctLen, chunkLen, cellData, cellLen, cellHdr]
  omega

/-- A whole CREATE arrives at an idle node that peels its header. -/
theorem Network.forced_header (laws : C.Lawful) {tag : Octets 16} {acc : C.Scalar} {p : Plan C} {plan : List (Plan C)}
    {net last : Network C} {node : Node C} {addr src : SocketAddr} {cid : UInt32}
    (coherent : Plan.Coherent acc (p :: plan)) (few : (p :: plan).length < 256)
    (routable : ∀ hop ∈ p :: plan, Plan.Routable hop.desc) (idle : Idle net (addr, node))
    (peels : Plan.Peels node.identity p)
    (wire : net.wire = (fragment (Plan.header tag acc (p :: plan))).map (createPacket src addr cid))
    (path : Forced Step (net.created addr node src cid (Plan.outcome tag acc p p.ssKem plan)) last) :
    Forced Step net last := by
  have numbered : Numbered (Plan.header tag acc (p :: plan)) := Plan.numbered_header laws tag acc few
  have peeled := Plan.processHeader_header laws tag acc p plan coherent few
    (fun next member => routable next (List.mem_cons_of_mem _ member)) node.identity peels.1 p.ssKem peels.2
  have buffer : (node.createFrags.get cid).getD (.fresh (fragCount (Plan.header tag acc (p :: plan)))) =
      held (Plan.header tag acc (p :: plan)) (Finset.range 0) := by
    rw [idle.createFrags, Table.get_empty, Option.getD_none, fresh_eq_held]
    rfl
  exact forced_create numbered peeled (fragCount_pos numbered) idle.present buffer (by rw [List.drop_zero, wire]) path

/-- What comes of a CREATE from `src` under `cid` to the first of `hops`, in every order of delivery. -/
structure Establishes (net final : Network C) (tag : Octets 16) (src : SocketAddr) (cid : UInt32)
    (hops : List (SocketAddr × Node C)) (keys : List (Octets 32 × Octets 32)) : Prop where
  path : Forced Network.Step net final
  wire : final.wire = if answers hops cid then hops.head?.toList.map fun hop => createdPacket hop.1 src cid else []
  elsewhere : ∀ addr ∉ hops.map Prod.fst, final.nodes.get addr = net.nodes.get addr
  notices : ∃ extra, final.notices = net.notices ++ extra ∧ ∀ notice ∈ extra, notice.1 ∈ hops.map Prod.fst
  installed : Installed final tag src (storedHops cid hops keys)
  sole : Sole final (storedHops cid hops keys)

theorem Network.establishes_terminal {net : Network C} {tag : Octets 16} {src addr : SocketAddr} {cid : UInt32}
    {node : Node C} {key : Octets 32 × Octets 32} (idle : Idle net (addr, node))
    (path : ∀ last, Forced Step (net.created addr node src cid (.terminal tag key.1 key.2)) last → Forced Step net last) :
    ∃ final, Establishes net final tag src cid [(addr, node)] [key] := by
  obtain ⟨node', result, circuits⟩ := net.created_terminal addr node src cid tag key.1 key.2
  rw [idle.circuits] at circuits
  rw [result] at path
  let final : Network C := ⟨net.nodes.insert addr node', [createdPacket addr src cid], net.notices⟩
  have entries (c : UInt32) : final.entryAt addr c = node'.circuits.get c := entryAt_of_get (Table.get_insert_self ..) c
  refine ⟨final, path final (.refl final), rfl, fun a other => Table.get_insert_of_ne _ _ (by simpa using other),
    ⟨[], by simp [final]⟩, ⟨?_, trivial⟩, ?_⟩
  · rw [entries, circuits]
    exact Table.get_insert_self ..
  · intro hop member c other
    obtain rfl : hop = ⟨addr, cid, key.1, key.2, 0⟩ := by simpa [storedHops] using member
    rw [entries, circuits, Table.get_insert_of_ne _ _ other, Table.get_empty]

theorem storedHops_map_addr (cid : UInt32) (hops : List (SocketAddr × Node C)) (keys : List (Octets 32 × Octets 32))
    (len : keys.length = hops.length) : (storedHops cid hops keys).map Hop.addr = hops.map Prod.fst := by
  induction hops generalizing cid keys with
  | nil => rfl
  | cons here rest ih =>
    obtain ⟨key, keys, rfl⟩ := List.exists_cons_of_length_eq_add_one len
    rw [storedHops, List.map_cons, List.map_cons, ih _ keys (Nat.succ.inj len)]

theorem answers_iff (hops : List (SocketAddr × Node C)) (cid : UInt32) :
    answers hops cid = true ↔ ∀ hop ∈ hops.dropLast, hop.2.nextCid = cid ∧ hop.2.pending.get cid = none := by
  induction hops generalizing cid with
  | nil => simp [answers]
  | cons hop rest ih =>
    cases rest with
    | nil => simp [answers]
    | cons next rest =>
      rw [answers, Bool.and_eq_true, Bool.and_eq_true, ih, beq_iff_eq, Option.isNone_iff_eq_none,
        List.dropLast_cons_cons, List.forall_mem_cons]
      constructor
      · rintro ⟨later, free, same⟩
        rw [same] at later free
        exact ⟨⟨same, free⟩, later⟩
      · rintro ⟨⟨same, free⟩, later⟩
        rw [same]
        exact ⟨later, free, rfl⟩

theorem Idle.insert {net sent : Network C} {addr : SocketAddr} {node : Node C} {hops : List (SocketAddr × Node C)}
    (idle : ∀ hop ∈ hops, Idle net hop) (apart : addr ∉ hops.map Prod.fst) (nodes : sent.nodes = net.nodes.insert addr node) :
    ∀ hop ∈ hops, Idle sent hop := by
  intro hop member
  have before := idle hop member
  have other : hop.1 ≠ addr := by
    rintro rfl
    exact apart (List.mem_map_of_mem member)
  refine ⟨?_, before.circuits, before.createFrags⟩
  rw [nodes, Table.get_insert_of_ne _ _ other]
  exact before.present

theorem storedHops_kept {mid final : Network C} {addr : SocketAddr} {cid : UInt32} {hops : List (SocketAddr × Node C)}
    {keys : List (Octets 32 × Octets 32)} (apart : addr ∉ hops.map Prod.fst)
    (others : ∀ a ≠ addr, final.nodes.get a = mid.nodes.get a) :
    ∀ hop ∈ storedHops cid hops keys, ∀ c, final.entryAt hop.addr c = mid.entryAt hop.addr c := by
  intro hop member c
  have other : hop.addr ≠ addr := by
    rintro rfl
    exact apart (storedHops_addr member)
  rw [Network.entryAt, Network.entryAt, others _ other]

/-- From a CREATE in flight to its first hop, every order of delivery leads to the circuit
installed and, where all relays answer, to CREATED in flight to the sender. -/
theorem Network.establishes (laws : C.Lawful) {tag : Octets 16} {acc : C.Scalar} {plan : List (Plan C)}
    {addr src : SocketAddr} {node : Node C} {rest : List (SocketAddr × Node C)} {net : Network C} {cid : UInt32}
    (coherent : Plan.Coherent acc plan) (few : plan.length < 256) (routable : ∀ hop ∈ plan, Plan.Routable hop.desc)
    (idle : ∀ hop ∈ (addr, node) :: rest, Idle net hop)
    (matching : List.Forall₂ (fun hop p => p.desc.cellAddr = hop.1 ∧ Plan.Peels hop.2.identity p)
      ((addr, node) :: rest) plan)
    (distinct : (((addr, node) :: rest).map Prod.fst).Nodup)
    (wire : net.wire = (fragment (Plan.header tag acc plan)).map (createPacket src addr cid)) :
    ∃ final, Establishes net final tag src cid ((addr, node) :: rest) (plan.map (Plan.keys tag)) := by
  -- Along the route, for any network that has the CREATE of this hop on the wire.
  induction rest generalizing addr src node net cid acc plan with
  | nil =>
    obtain ⟨p, plan, head, tail, rfl⟩ := List.forall₂_cons_left_iff.mp matching
    rw [List.forall₂_nil_left_iff.mp tail] at coherent few routable wire ⊢
    exact establishes_terminal (idle _ List.mem_cons_self) fun last path =>
      forced_header laws coherent few routable (idle _ List.mem_cons_self) head.2 wire path
  | cons next rest ih =>
    obtain ⟨nextAddr, nextNode⟩ := next
    obtain ⟨p, plan, head, tail, rfl⟩ := List.forall₂_cons_left_iff.mp matching
    obtain ⟨q, later, named, _, rfl⟩ := List.forall₂_cons_left_iff.mp tail
    have idleHere := idle (addr, node) List.mem_cons_self
    obtain ⟨apart, distinct⟩ : addr ∉ ((nextAddr, nextNode) :: rest).map Prod.fst ∧ _ := List.nodup_cons.mp distinct
    -- The relay installs its entry and sends CREATE on.
    obtain ⟨node', result, circuits, pending⟩ := net.created_relay addr node src cid tag (p.keys tag).1 (p.keys tag).2
      q.desc.nodeId nextAddr (Plan.header tag (acc * p.factor acc) (q :: later))
    rw [idleHere.circuits] at circuits
    let sent : Network C := ⟨net.nodes.insert addr node',
      (fragment (Plan.header tag (acc * p.factor acc) (q :: later))).map (createPacket addr nextAddr node.nextCid), net.notices⟩
    -- The addresses are distinct, so the nodes behind have not been touched.
    have idleRest : ∀ hop ∈ (nextAddr, nextNode) :: rest, Idle sent hop :=
      Idle.insert (fun hop member => idle hop (List.mem_cons_of_mem _ member)) apart rfl
    obtain ⟨mid, onward⟩ := ih coherent.2 (Nat.lt_of_succ_lt few)
      (fun hop member => routable hop (List.mem_cons_of_mem _ member)) idleRest tail distinct rfl
    have toMid : Forced Step net mid := by
      apply forced_header laws coherent few routable idleHere head.2 wire
      rw [Plan.outcome, named.1]
      exact result ▸ onward.path
    have present : mid.nodes.get addr = some node' := by
      rw [onward.elsewhere addr apart]
      exact Table.get_insert_self ..
    -- CREATED comes back from the next hop, or never.
    obtain ⟨final, back, answer, others, entries, notices⟩ : ∃ final, Forced Step mid final ∧
        final.wire = (if answers ((addr, node) :: (nextAddr, nextNode) :: rest) cid then [createdPacket addr src cid] else []) ∧
        (∀ a ≠ addr, final.nodes.get a = mid.nodes.get a) ∧ (∀ c, final.entryAt addr c = mid.entryAt addr c) ∧
        ∃ extra, final.notices = mid.notices ++ extra ∧ ∀ notice ∈ extra, notice.1 = addr := by
      by_cases reply : answers ((nextAddr, nextNode) :: rest) node.nextCid
      · have arriving : mid.wire = [createdPacket nextAddr addr node.nextCid] := by simp [onward.wire, reply]
        obtain ⟨final, back, answer, more⟩ := forced_created present circuits arriving
        exact ⟨final, back, by rw [answer, answers, reply, Bool.true_and, pending], more⟩
      · exact ⟨mid, .refl mid, by simp [onward.wire, answers, reply], fun _ _ => rfl, fun _ => rfl, [], by simp, by simp⟩
    obtain ⟨extra, grown, within⟩ := notices
    obtain ⟨extraRest, grownRest, withinRest⟩ := onward.notices
    -- On its way back CREATED changes no entry of the hops behind.
    have kept : ∀ hop ∈ storedHops node.nextCid ((nextAddr, nextNode) :: rest) ((q :: later).map (Plan.keys tag)),
        ∀ c, final.entryAt hop.addr c = mid.entryAt hop.addr c := storedHops_kept apart others
    refine ⟨final, toMid.trans back, answer, ?_, ⟨extraRest ++ extra, ?_, ?_⟩, ⟨?_, ?_⟩, ?_⟩
    · intro a outside
      rw [List.map_cons, List.mem_cons, not_or] at outside
      rw [others a outside.1, onward.elsewhere a outside.2]
      exact Table.get_insert_of_ne _ _ outside.1
    · rw [grown, grownRest, List.append_assoc]
    · intro notice member
      rw [List.map_cons, List.mem_cons]
      rcases List.mem_append.mp member with old | new
      · exact .inr (withinRest notice old)
      · exact .inl (within notice new)
    · rw [entries, entryAt_of_get present, circuits]
      exact Table.get_insert_self ..
    · exact onward.installed.congr fun hop member => kept hop member hop.cid
    · intro hop member c other
      rcases List.mem_cons.mp member with rfl | later
      · rw [entries, entryAt_of_get present, circuits, Table.get_insert_of_ne _ _ other, Table.get_empty]
      · rw [kept hop later]
        exact onward.sole hop later c other

end Nbf.Net

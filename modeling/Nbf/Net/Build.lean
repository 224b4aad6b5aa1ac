import Nbf.Crypto.Transparent
import Nbf.Net.Establishment

/-! `build_circuit` from its call to its result.

The installed circuit is the one the origin planned, in every order of delivery;
whether CREATED finds its way back is decided by the counters of the relays.
-/

set_option autoImplicit false

namespace Nbf.Net

open Nbf.Library Nbf.Crypto

variable {C : Crates}

/-- A network at rest in which `origin` may build a circuit through `hops`: distinct honest nodes
other than itself, without circuits, whose descriptors resolve. Counters and pending waits are
arbitrary. -/
structure Ready (net : Network C) (lookup : Lookup) (originAddr : SocketAddr) (origin : Node C)
    (hops : List (SocketAddr × Node C)) (descs : List Descriptor) : Prop where
  present : net.nodes.get originAddr = some origin
  rest : net.wire = []
  idle : ∀ hop ∈ hops, Idle net hop
  distinct : (originAddr :: hops.map Prod.fst).Nodup
  honest : HonestRoute (hops.map fun hop => hop.2.identity) descs
  addresses : descs.map Descriptor.cellAddr = hops.map Prod.fst
  resolves : ∀ d ∈ descs, lookup d.nodeId = .ok d

/-- The `build_circuit` call behind `task` returns `Ok` from this state on. -/
def BuildReturns (net : Network C) (originAddr : SocketAddr) (tx : OneshotTx) (task : BuildTask) : Prop :=
  ∃ node node' handle, net.nodes.get originAddr = some node ∧
    node.buildAwait task (decide ((originAddr, .resolve tx) ∈ net.notices)) = (node', .ok handle)

theorem resolveRoute_ok {lookup : Lookup} {descs : List Descriptor} (resolves : ∀ d ∈ descs, lookup d.nodeId = .ok d) :
    resolveRoute lookup (descs.map Descriptor.nodeId) = .ok descs := by
  induction descs with
  | nil => rfl
  | cons d rest ih =>
    rw [List.map_cons, resolveRoute, resolves d List.mem_cons_self,
      ih fun later member => resolves later (List.mem_cons_of_mem _ member)]
    rfl

theorem Node.buildStart_plan (laws : C.Lawful) (origin : Node C) {lookup : Lookup} {ids : List (NodeIdentity C)}
    {descs : List Descriptor} (honest : HonestRoute ids descs) (resolves : ∀ d ∈ descs, lookup d.nodeId = .ok d)
    (tx : OneshotTx) :
    ∃ node linkPub plan built, origin.buildStart lookup tx (descs.map Descriptor.nodeId) =
        (node, .ensurePeerLink built.firstAddr linkPub ::
          (fragment built.header).map fun frag => .sendCell built.firstAddr ⟨origin.nextCid, .create, 0, frag⟩,
          .ok ⟨origin.nextCid, built⟩) ∧
      node.pending.get origin.nextCid = some tx ∧
      plan.map Plan.desc = descs ∧ Plan.Valid ids plan ∧ built.header = Plan.header built.tag 1 plan ∧
      built.fwdKeys.zip built.bwdKeys = plan.map (Plan.keys built.tag) ∧
      descs.head?.map Descriptor.cellAddr = some built.firstAddr := by
  obtain ⟨tag, rng, drawn⟩ : ∃ tag rng, C.fillBytes 16 origin.rng = (tag, rng) := ⟨_, _, rfl⟩
  obtain ⟨plan, built, ok, route, valid, header, rfl, fwd, bwd, firstAddr⟩ := buildHeader_plan laws honest tag rng
  obtain ⟨first, rest, rfl⟩ : ∃ first rest, descs = first :: rest := by
    cases descs with
    | nil => simp at firstAddr
    | cons first rest => exact ⟨first, rest, rfl⟩
  have size : (first :: rest).length ≤ maxHops := honest.signed.length_eq ▸ honest.short
  have admitted : ¬ ((first :: rest).map Descriptor.nodeId = [] ∨
      maxHops < ((first :: rest).map Descriptor.nodeId).length) := by
    simp only [List.map_cons, reduceCtorEq, false_or, List.length_cons, List.length_map] at size ⊢
    omega
  obtain ⟨result, rng', built_eq⟩ : ∃ result rng', buildHeader C (first :: rest) built.tag rng = (result, rng') :=
    ⟨_, _, rfl⟩
  rw [built_eq] at ok
  obtain rfl : result = .ok built := ok
  let waiting : Node C :=
    { origin with rng := rng', nextCid := origin.nextCid + 1, pending := origin.pending.insert origin.nextCid tx }
  refine ⟨waiting, first.linkPub, plan, built, ?_, Table.get_insert_self .., route, valid, header, ?_, firstAddr⟩
  · rw [buildStart, if_neg admitted, resolveRoute_ok resolves]
    simp only [drawn, built_eq, newCid]
    rfl
  · rw [fwd, bwd, List.zip_map']

theorem Node.buildAwait_ok {node node' : Node C} {task : BuildTask} {resolved : Bool} {handle : CircuitHandle}
    (ok : node.buildAwait task resolved = (node', .ok handle)) : resolved = true := by
  cases resolved with
  | true => rfl
  | false => cases ok

theorem Ready.matching {net : Network C} {lookup : Lookup} {originAddr : SocketAddr} {origin : Node C}
    {hops : List (SocketAddr × Node C)} {descs : List Descriptor} (ready : Ready net lookup originAddr origin hops descs)
    {plan : List (Plan C)} (route : plan.map Plan.desc = descs)
    (valid : Plan.Valid (hops.map fun hop => hop.2.identity) plan) :
    List.Forall₂ (fun hop p => p.desc.cellAddr = hop.1 ∧ Plan.Peels hop.2.identity p) hops plan := by
  have addresses : plan.map (fun p => p.desc.cellAddr) = hops.map Prod.fst := by
    rw [← ready.addresses, ← route, List.map_map]
    rfl
  have named : List.Forall₂ (fun hop p => p.desc.cellAddr = hop.1) hops plan := by
    have same : List.Forall₂ (fun a b => b = a) (hops.map Prod.fst) (plan.map fun p => p.desc.cellAddr) := by
      rw [addresses]
      exact List.forall₂_same.mpr fun _ _ => rfl
    rwa [List.forall₂_map_left_iff, List.forall₂_map_right_iff] at same
  exact forall₂_and named (List.forall₂_map_left_iff.mp valid.peels)

/-- Everything a build leads to, in every order of delivery. -/
theorem Ready.outcome (laws : C.Lawful) {net : Network C} {lookup : Lookup} {originAddr : SocketAddr}
    {origin : Node C} {hops : List (SocketAddr × Node C)} {descs : List Descriptor}
    (ready : Ready net lookup originAddr origin hops descs) (tx : OneshotTx)
    (fresh : (originAddr, .resolve tx) ∉ net.notices) :
    ∃ node effects built final,
      origin.buildStart lookup tx (descs.map Descriptor.nodeId) = (node, effects, .ok ⟨origin.nextCid, built⟩) ∧
      Forced Network.Step (net.update originAddr node effects []) final ∧ final.wire = [] ∧
      (built.fwdKeys.zip built.bwdKeys).length = hops.length ∧
      Installed final built.tag originAddr (storedHops origin.nextCid hops (built.fwdKeys.zip built.bwdKeys)) ∧
      Sole final (storedHops origin.nextCid hops (built.fwdKeys.zip built.bwdKeys)) ∧
      (BuildReturns final originAddr tx ⟨origin.nextCid, built⟩ ↔ answers hops origin.nextCid = true) := by
  obtain ⟨node, linkPub, plan, built, start, waiting, route, valid, header, keys, firstAddr⟩ :=
    origin.buildStart_plan laws ready.honest ready.resolves tx
  have matching := ready.matching route valid
  obtain ⟨apart, distinct⟩ := List.nodup_cons.mp ready.distinct
  obtain ⟨addr, hopNode, rest, rfl⟩ : ∃ addr hopNode rest, hops = (addr, hopNode) :: rest := by
    cases hops with
    | nil => simpa using ready.honest.nonempty
    | cons hop rest => exact ⟨hop.1, hop.2, rest, rfl⟩
  obtain rfl : built.firstAddr = addr := by
    have first := congrArg List.head? ready.addresses
    rw [List.head?_map, firstAddr] at first
    exact Option.some.inj first
  let sent := net.update originAddr node (.ensurePeerLink built.firstAddr linkPub ::
    (fragment built.header).map fun frag => .sendCell built.firstAddr ⟨origin.nextCid, .create, 0, frag⟩) []
  have wire : sent.wire = (fragment (Plan.header built.tag 1 plan)).map
      (createPacket originAddr built.firstAddr origin.nextCid) := by
    rw [← header, ← packetsOf_fragments _ _ _ _ (length_fragment_le built.header)]
    rfl
  -- Sending resolves nothing, so a resolution is one by CREATED.
  have silent : sent.notices = net.notices := by
    have none := noticesOf_fragments originAddr built.firstAddr origin.nextCid (fragment built.header)
    have grown : sent.notices = net.notices ++ noticesOf originAddr ((fragment built.header).map fun frag =>
      .sendCell built.firstAddr ⟨origin.nextCid, .create, 0, frag⟩) := rfl
    rw [grown, none, List.append_nil]
  have idle : ∀ hop ∈ (built.firstAddr, hopNode) :: rest, Idle sent hop := Idle.insert ready.idle apart rfl
  obtain ⟨mid, onward⟩ := Network.establishes laws valid.coherent valid.few valid.routable idle matching distinct wire
  have present : mid.nodes.get originAddr = some node := by
    rw [onward.elsewhere originAddr apart]
    exact Table.get_insert_self ..
  obtain ⟨extra, grown, within⟩ := onward.notices
  rw [silent] at grown
  rw [← keys] at onward
  have lengths : (built.fwdKeys.zip built.bwdKeys).length = ((built.firstAddr, hopNode) :: rest).length := by
    rw [keys, List.length_map, matching.length_eq]
  by_cases reply : answers ((built.firstAddr, hopNode) :: rest) origin.nextCid
  · -- CREATED reaches the origin, whose wait it resolves.
    let woken : Node C := { node with pending := node.pending.remove origin.nextCid }
    let final := mid.update originAddr woken [.resolve tx] []
    have arriving : mid.wire = [createdPacket built.firstAddr originAddr origin.nextCid] := by simp [onward.wire, reply]
    have last : Forced Network.Step mid final := by
      refine Network.forced_receive arriving (by simp) (fun lookup => ?_) (.refl final)
      simp only [createdPacket, Network.receive, present, Node.handleCell, Node.handleCreated, waiting]
      rfl
    have kept : ∀ hop ∈ storedHops origin.nextCid ((built.firstAddr, hopNode) :: rest) (built.fwdKeys.zip built.bwdKeys),
        ∀ c, final.entryAt hop.addr c = mid.entryAt hop.addr c :=
      storedHops_kept apart fun _ other => Table.get_insert_of_ne _ _ other
    refine ⟨node, _, built, final, start, onward.path.trans last, rfl, lengths,
      onward.installed.congr fun hop member => kept hop member hop.cid, ?_, iff_of_true ?_ reply⟩
    · intro hop member c other
      rw [kept hop member]
      exact onward.sole hop member c other
    · have resolved : (originAddr, Effect.resolve tx) ∈ final.notices := List.mem_append_right _ (by simp [noticesOf])
      exact ⟨woken, _, _, Table.get_insert_self .., by rw [decide_eq_true resolved]; rfl⟩
  · refine ⟨node, _, built, mid, start, onward.path, by simp [onward.wire, reply], lengths, onward.installed,
      onward.sole, iff_of_false ?_ reply⟩
    rintro ⟨_, _, _, -, ok⟩
    have resolved := of_decide_eq_true (Node.buildAwait_ok ok)
    rw [grown, List.mem_append] at resolved
    rcases resolved with before | later
    · exact fresh before
    · exact apart (within _ later)

/-- Building a circuit, in every order of delivery. CREATE always installs the circuit hop by hop
with the origin's keys. `build_circuit` returns `Ok` exactly when every relay allocates the cid the
origin allocated, and waits for nothing under it itself. -/
theorem build_returns_iff (laws : C.Lawful) (net : Network C) (lookup : Lookup) (originAddr : SocketAddr)
    (origin : Node C) (hops : List (SocketAddr × Node C)) (descs : List Descriptor)
    (ready : Ready net lookup originAddr origin hops descs) (tx : OneshotTx)
    (fresh : (originAddr, .resolve tx) ∉ net.notices) :
    ∃ node effects built final labels,
      origin.buildStart lookup tx (descs.map Descriptor.nodeId) = (node, effects, .ok ⟨origin.nextCid, built⟩) ∧
      Run Network.Step (net.update originAddr node effects []) labels final ∧ final.wire = [] ∧
      (∀ labels other, Run Network.Step (net.update originAddr node effects []) labels other → other.wire = [] →
        other = final) ∧
      (let stored := storedHops origin.nextCid hops (built.fwdKeys.zip built.bwdKeys)
       stored.map Hop.addr = hops.map Prod.fst ∧ Installed final built.tag originAddr stored ∧ Sole final stored) ∧
      (BuildReturns final originAddr tx ⟨origin.nextCid, built⟩ ↔
        ∀ hop ∈ hops.dropLast, hop.2.nextCid = origin.nextCid ∧ hop.2.pending.get origin.nextCid = none) := by
  obtain ⟨node, effects, built, final, start, path, rest, lengths, installed, sole, returns⟩ :=
    ready.outcome laws tx fresh
  obtain ⟨labels, run⟩ := path.toRun
  refine ⟨node, effects, built, final, labels, start, run, rest, fun _ other ends stuck => ?_,
    ⟨storedHops_map_addr _ _ _ lengths, installed, sole⟩, returns.trans (answers_iff hops origin.nextCid)⟩
  exact path.run_ends (fun _ _ => Network.quiet rest) ends fun _ _ => Network.quiet stuck

namespace Transparent

open Nbf.Crypto.Transparent

def node (seed : UInt8) (used : UInt32) : Node crates := { Node.spawn crates seed with nextCid := 1 + used }

def pairHops (used : UInt32) : List (SocketAddr × Node crates) :=
  [(localhost 9100, node 1 used), (localhost 9101, node 20 0)]

def pairNet (used : UInt32) : Network crates where
  nodes := ((Table.empty.insert (localhost 9000) (node 50 0)).insert (localhost 9100) (node 1 used)).insert
    (localhost 9101) (node 20 0)
  wire := []
  notices := []

def pairLookup : Lookup := fun id =>
  if id = .replicate 20 1 then .ok (descriptor 1 9100)
  else if id = .replicate 20 20 then .ok (descriptor 20 9101) else .error .timeout

theorem localhost_ne {p q : UInt16} (apart : p ≠ q) : localhost p ≠ localhost q := by
  intro same
  exact apart (congrArg SocketAddr.port same)

theorem pair_ready (used : UInt32) :
    Ready (pairNet used) pairLookup (localhost 9000) (node 50 0) (pairHops used) pairRoute where
  present := by
    rw [pairNet, Table.get_insert_of_ne _ _ (localhost_ne (by decide)), Table.get_insert_of_ne _ _ (localhost_ne (by decide)),
      Table.get_insert_self]
  rest := rfl
  idle := by
    simp only [pairHops, List.forall_mem_cons]
    refine ⟨⟨?_, rfl, rfl⟩, ⟨Table.get_insert_self .., rfl, rfl⟩, by simp⟩
    rw [pairNet, Table.get_insert_of_ne _ _ (localhost_ne (by decide)), Table.get_insert_self]
  distinct := by
    change [localhost 9000, localhost 9100, localhost 9101].Nodup
    decide
  honest := pair_honest
  addresses := rfl
  resolves := by
    simp only [pairRoute, List.forall_mem_cons]
    exact ⟨if_pos rfl, (if_neg (by decide)).trans (if_pos rfl), by simp⟩

theorem pair_build_returns : ∃ node effects built final labels,
    (Transparent.node 50 0).buildStart pairLookup 0 (pairRoute.map Descriptor.nodeId) = (node, effects, .ok ⟨1, built⟩) ∧
      Run Network.Step ((pairNet 0).update (localhost 9000) node effects []) labels final ∧
      BuildReturns final (localhost 9000) 0 ⟨1, built⟩ := by
  obtain ⟨node, effects, built, final, labels, start, run, -, -, -, returns⟩ :=
    build_returns_iff lawful (pairNet 0) pairLookup (localhost 9000) (Transparent.node 50 0) (pairHops 0) pairRoute
      (pair_ready 0) 0 (by simp [pairNet])
  exact ⟨node, effects, built, final, labels, start, run, returns.mpr (by simp [pairHops, Transparent.node, Node.spawn])⟩

/-- One cid allocated by the relay before, and the same build never returns. -/
theorem skewed_build_times_out : Ready (pairNet 1) pairLookup (localhost 9000) (node 50 0) (pairHops 1) pairRoute ∧
    ∃ node effects built,
      (Transparent.node 50 0).buildStart pairLookup 0 (pairRoute.map Descriptor.nodeId) = (node, effects, .ok ⟨1, built⟩) ∧
      ∀ labels final, Run Network.Step ((pairNet 1).update (localhost 9000) node effects []) labels final →
        final.wire = [] → ¬ BuildReturns final (localhost 9000) 0 ⟨1, built⟩ := by
  obtain ⟨node, effects, built, final, start, path, rest, -, -, -, returns⟩ :=
    (pair_ready 1).outcome lawful 0 (by simp [pairNet])
  refine ⟨pair_ready 1, node, effects, built, start, fun labels other run stuck ok => ?_⟩
  obtain rfl := path.run_ends (fun _ _ => Network.quiet rest) run fun _ _ => Network.quiet stuck
  have answered := returns.mp ok
  simp [pairHops, answers, Transparent.node, Node.spawn] at answered

end Transparent
end Nbf.Net

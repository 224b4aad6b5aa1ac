import Nbf.Net.Build
import Nbf.Net.Session

/-! What is said on a circuit from the moment that `build_circuit` has returned it. -/

set_option autoImplicit false

namespace Nbf.Net

open Nbf.Library Nbf.Crypto

variable {C : Crates}

theorem buildHeader_keys {route : List Descriptor} {tag : Octets 16} {rng : C.Rng} {built : BuiltHeader}
    (ok : (buildHeader C route tag rng).1 = .ok built) :
    built.fwdKeys.length = built.bwdKeys.length ∧ route.head?.map Descriptor.cellAddr = some built.firstAddr := by
  cases route with
  | nil => cases ok
  | cons first rest =>
    simp only [buildHeader] at ok
    split at ok
    · cases ok
    obtain ⟨kems, -, rest⟩ := Checked.bind_eq_ok.mp ok
    obtain rfl := Checked.ok.inj rest
    simp

theorem Node.buildStart_ok {node node' : Node C} {lookup : Lookup} {tx : OneshotTx} {route : List NodeId} {effects : List Effect}
    {task : BuildTask} (start : node.buildStart lookup tx route = (node', effects, .ok task)) :
    ∃ descs tag rng, resolveRoute lookup route = .ok descs ∧ (buildHeader C descs tag rng).1 = .ok task.built ∧
      route.length ≤ maxHops := by
  unfold buildStart at start
  split at start
  · cases start
  next admitted =>
    cases resolved : resolveRoute lookup route with
    | error err =>
      rw [resolved] at start
      cases start
    | ok descs =>
      have short : route.length ≤ maxHops := Nat.not_lt.mp fun long => admitted (.inr long)
      obtain ⟨⟨tag, rng⟩, drawn⟩ : ∃ draw, C.fillBytes 16 node.rng = draw := ⟨_, rfl⟩
      obtain ⟨⟨result, rng'⟩, header⟩ : ∃ result, buildHeader C descs tag rng = result := ⟨_, rfl⟩
      simp only [resolved, drawn, header] at start
      cases result with
      | error err => cases start
      | panic => cases descs <;> cases start
      | ok built =>
        cases descs with
        | nil => cases start
        | cons first rest =>
          simp only [Prod.mk.injEq, Checked.ok.injEq] at start
          obtain ⟨-, -, rfl⟩ := start
          exact ⟨_, tag, rng, rfl, congrArg Prod.fst header, short⟩

theorem storedHops_keys (cid : UInt32) (hops : List (SocketAddr × Node C)) (keys : List (Octets 32 × Octets 32))
    (len : keys.length = hops.length) : (storedHops cid hops keys).map Hop.kFwd = keys.map Prod.fst ∧
      (storedHops cid hops keys).map Hop.kBwd = keys.map Prod.snd := by
  induction hops generalizing cid keys with
  | nil => simp [storedHops, List.length_eq_zero_iff.mp len]
  | cons here rest ih =>
    obtain ⟨⟨kFwd, kBwd⟩, keys, rfl⟩ := List.exists_cons_of_length_eq_add_one len
    obtain ⟨fwd, bwd⟩ := ih here.2.nextCid keys (Nat.succ.inj len)
    simp only [storedHops, List.map_cons, fwd, bwd, and_self]

theorem storedHops_uniform {cid : UInt32} {hops : List (SocketAddr × Node C)} {keys : List (Octets 32 × Octets 32)}
    (answered : answers hops cid = true) : ∀ hop ∈ storedHops cid hops keys, hop.cid = cid ∧ hop.lastFwd = 0 := by
  induction hops generalizing keys with
  | nil => simp [storedHops]
  | cons here rest ih =>
    cases keys with
    | nil => simp [storedHops]
    | cons key keys =>
      rw [storedHops, List.forall_mem_cons]
      refine ⟨⟨rfl, rfl⟩, ?_⟩
      cases rest with
      | nil => simp [storedHops]
      | cons next rest =>
        rw [answers, Bool.and_eq_true, Bool.and_eq_true, beq_iff_eq] at answered
        obtain ⟨later, -, same⟩ := answered
        rw [same] at later ⊢
        exact ih later

/-- Where `build_circuit` has returned `Ok`, all that its handle is for is in place. -/
theorem Ready.opened (laws : C.Lawful) {net : Network C} {lookup : Lookup} {originAddr : SocketAddr} {origin : Node C}
    {hops : List (SocketAddr × Node C)} {descs : List Descriptor} (ready : Ready net lookup originAddr origin hops descs)
    (tx : OneshotTx) (fresh : (originAddr, .resolve tx) ∉ net.notices) {node waiting node' : Node C} {effects : List Effect}
    {task : BuildTask} (start : origin.buildStart lookup tx (descs.map Descriptor.nodeId) = (node, effects, .ok task))
    {labels : List Packet} {last : Network C} (run : Run Network.Step (net.update originAddr node effects []) labels last)
    (rest : last.wire = []) (present : last.nodes.get originAddr = some waiting) {handle : CircuitHandle}
    (returned : waiting.buildAwait task (decide ((originAddr, .resolve tx) ∈ last.notices)) = (node', .ok handle)) :
    ∃ first later, (first :: later).map Hop.addr = hops.map Prod.fst ∧
      Talk.Opened originAddr handle first later { last with nodes := last.nodes.insert originAddr node' } := by
  obtain ⟨node, effects, built, final, start', path, quiet, lengths, installed, -, returns⟩ := ready.outcome laws tx fresh
  rw [start'] at start
  simp only [Prod.mk.injEq, Checked.ok.injEq] at start
  obtain ⟨rfl, rfl, rfl⟩ := start
  -- With nothing else under way there is one run, so the run given is it.
  obtain rfl := path.run_ends (fun _ _ => Network.quiet quiet) run fun _ _ => Network.quiet rest
  have answered := returns.mp ⟨waiting, node', handle, present, returned⟩
  obtain ⟨descs', tag, rng, resolved, header, short⟩ := Node.buildStart_ok start'
  rw [resolveRoute_ok ready.resolves, Except.ok.injEq] at resolved
  subst resolved
  obtain ⟨same, firstAddr⟩ := buildHeader_keys header
  rw [Node.buildAwait_ok returned] at returned
  simp only [Node.buildAwait, Node.buildFinish, if_true, Prod.mk.injEq, Except.ok.injEq] at returned
  obtain ⟨rfl, rfl⟩ := returned
  have addrs := storedHops_map_addr origin.nextCid hops _ lengths
  obtain ⟨fwd, bwd⟩ := storedHops_keys origin.nextCid hops _ lengths
  rw [List.map_fst_zip same.le] at fwd
  rw [List.map_snd_zip same.ge] at bwd
  -- The circuit has been answered, so every hop has allocated the cid of the origin.
  have uniform : ∀ hop ∈ storedHops origin.nextCid hops (built.fwdKeys.zip built.bwdKeys),
      hop.cid = origin.nextCid ∧ hop.lastFwd = 0 := storedHops_uniform answered
  have apart := ready.distinct
  have few : hops.length ≤ maxHops := by
    have routed : descs.length = hops.length := by simpa using congrArg List.length ready.addresses
    rwa [List.length_map, routed] at short
  generalize storedHops origin.nextCid hops (built.fwdKeys.zip built.bwdKeys) = stored at installed addrs fwd bwd uniform
  rw [← addrs] at apart
  have count : stored.length = hops.length := by simpa using congrArg List.length addrs
  have heads : stored.head?.map Hop.addr = some built.firstAddr := by
    rw [← List.head?_map, addrs, ← ready.addresses, List.head?_map, firstAddr]
  cases stored with
  | nil => cases heads
  | cons first later =>
    have head : first.addr = built.firstAddr := Option.some.inj heads
    refine ⟨first, later, addrs, ?_, ⟨.empty, ?_⟩, ?_, fun hop member => (uniform hop member).2,
      fun a b => by rw [quiet]; rfl⟩
    · exact
        { distinct := apart
          cids := fun hop member => (uniform hop member).1
          short := count ▸ few
          fwd := fwd.symm
          bwd := bwd.symm }
    · rw [head]
      exact (Network.entryAt_of_get (Table.get_insert_self ..) _).trans (Table.get_insert_self ..)
    · refine installed.congr fun hop member => ?_
      have other : hop.addr ≠ originAddr := fun here =>
        (List.nodup_cons.mp apart).1 (here ▸ List.mem_map_of_mem member)
      simp only [Network.entryAt, Table.get_insert_of_ne _ _ other]

namespace Transparent

open Nbf.Crypto.Transparent

end Transparent
end Nbf.Net

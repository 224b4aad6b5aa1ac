import Nbf.Net.Filter
import Nbf.Net.Wakeup

/-! The numbers of the forward cells over the life of an origin.

`seq_origin` starts at 64, every `send` call takes the next number, whatever circuit
it is on, and behind 2 ^ 32 - 1 comes 0. The number enters the nonce of every
forward layer, and every hop compares it with the last one it took.
-/

set_option autoImplicit false

namespace Nbf.Net

open Nbf.Library Nbf.Crypto

variable {C : Crates}

deriving instance DecidableEq for CircuitHandle

abbrev Draws := List (CircuitHandle × UInt32)

def Event.sender? : Event → Option CircuitHandle
  | .send handle _ _ _ => some handle
  | _ => none

def Running.drawn (r : Running C) (event : Event) : Draws := event.sender?.toList.map fun handle => (handle, r.node.seqOrigin)

def seqsOn (handle : CircuitHandle) (draws : Draws) : List UInt32 :=
  (draws.filter fun draw => draw.1 = handle).map Prod.snd

/-- The `send` calls on one circuit, counted from 0 with all others of the node. -/
def callsOn (handle : CircuitHandle) (events : List Event) : List Nat :=
  ((events.filterMap Event.sender?).zipIdx.filter fun call => call.1 = handle).map Prod.snd

/-- How often `seq_origin` has wrapped before a `send` call. -/
def laps (call : Nat) : Nat := (64 + call) / 2 ^ 32

/-- No call comes when the counter stands at 0, and any two are more than 2 ^ 32 calls apart for each wrap between them. -/
def Spread (calls : List Nat) : Prop :=
  (∀ call ∈ calls, ¬ 2 ^ 32 ∣ 64 + call) ∧ calls.Pairwise fun i j => 2 ^ 32 * (laps j - laps i) < j - i

/-- The keys and nonces `seal_onion` seals the layers of one cell with, innermost first. -/
def layers (C : Crates) (handle : CircuitHandle) (seq : UInt32) : List (Octets 32 × Octets 12) :=
  handle.fwd.reverse.map fun key => (key, relayNonce C handle.tag 0 seq)

theorem sealOnion_eq_layers (handle : CircuitHandle) (seq : UInt32) (msg : List UInt8) :
    sealOnion C handle.fwd handle.tag seq msg =
      (layers C handle seq).foldl (fun payload layer => aeadSeal C layer.1 layer.2 payload) msg := by
  rw [sealOnion, layers, List.foldl_map, List.foldl_reverse]

/-- A hop with a new entry takes every cell it can peel that was sent behind all it was given before. -/
def TakesFresh (C : Crates) (seqs : List UInt32) : Prop :=
  ∀ (node : Node C) (cid : UInt32) (entry : CircuitEntry), node.circuits.get cid = some entry → entry.lastFwd? = some 0 →
    ∀ (before : List Inbound) (a : Inbound) (msg : RelayMsg) (k : Nat), (∀ b ∈ before, b.Spares cid) →
      entry.authentic C cid a = some msg → seqs[k]? = some msg.seq →
      (∀ b ∈ before, ∀ earlier, entry.authentic C cid b = some earlier → ∃ j < k, seqs[j]? = some earlier.seq) →
      (node.handleAll before).actsOn cid a = some msg

/-- The numbers of one circuit go up, no key meets a nonce twice, and no hop takes a fresh cell for a replay. -/
structure NeverRepeats (C : Crates) (handle : CircuitHandle) (seqs : List UInt32) : Prop where
  increasing : seqs.Pairwise (· < ·)
  ofHop : ∀ key ∈ handle.fwd, (seqs.map fun seq => (key, relayNonce C handle.tag 0 seq)).Nodup
  /-- Where each hop has a key of its own. -/
  ofAll : handle.fwd.Nodup → (seqs.flatMap (layers C handle)).Nodup
  taken : TakesFresh C seqs

/-! ## One circuit -/

theorem seqAt_lt_iff {i j : Nat} (earlier : i < j) :
    UInt32.ofNat (64 + i) < UInt32.ofNat (64 + j) ↔ 2 ^ 32 * (laps j - laps i) < j - i := by
  have shifted := mod_lt_mod_iff (m := 2 ^ 32) (Nat.add_lt_add_left earlier 64)
  rw [Nat.add_sub_add_left] at shifted
  rw [UInt32.lt_iff_toNat_lt, UInt32.toNat_ofNat', UInt32.toNat_ofNat']
  exact shifted

theorem seqAt_eq_zero_iff (k : Nat) : UInt32.ofNat (64 + k) = 0 ↔ 2 ^ 32 ∣ 64 + k := by
  rw [← UInt32.toNat_inj, UInt32.toNat_ofNat', Nat.dvd_iff_mod_eq_zero]
  rfl

theorem spread_of_few {calls : List Nat} (few : ∀ call ∈ calls, 64 + call < 2 ^ 32) (ordered : calls.Pairwise (· < ·)) :
    Spread calls := by
  have unwrapped : ∀ call ∈ calls, laps call = 0 := fun call member => Nat.div_eq_of_lt (few call member)
  refine ⟨fun call member multiple => ?_, ordered.imp_of_mem fun first second earlier => ?_⟩
  · have reached := Nat.le_of_dvd (by omega) multiple
    have below := few call member
    omega
  · rw [unwrapped _ first, unwrapped _ second]
    omega

theorem layers_of_apart {handle : CircuitHandle} {seqs : List UInt32}
    (injective : Function.Injective (relayNonce C handle.tag 0)) (increasing : seqs.Pairwise (· < ·))
    (own : handle.fwd.Nodup) : (seqs.flatMap (layers C handle)).Nodup := by
  rw [List.nodup_flatMap]
  constructor
  · intro seq _
    exact (List.nodup_reverse.mpr own).map fun _ _ same => (Prod.mk.inj same).1
  · refine increasing.imp fun {seq seq'} less layer one two => ?_
    obtain ⟨_, _, rfl⟩ := List.mem_map.mp one
    obtain ⟨_, _, same⟩ := List.mem_map.mp two
    exact absurd (injective (Prod.mk.inj same).2) (UInt32.ne_of_lt less).symm

theorem takesFresh_of_increasing {seqs : List UInt32} (increasing : seqs.Pairwise (· < ·)) (nonzero : ∀ seq ∈ seqs, seq ≠ 0) :
    TakesFresh C seqs := by
  intro node cid entry stored has before a msg k spares authentic sent behind
  obtain ⟨seq, now, source⟩ := Node.get_handleAll stored has spares
  rw [Node.actsOn_eq now (CircuitEntry.lastFwd?_withLastFwd has seq), CircuitEntry.authentic_withLastFwd, authentic,
    Option.filter_some]
  have above : seq < msg.seq := by
    rcases source with rfl | ⟨b, member, earlier, given, rfl⟩
    · exact UInt32.pos_iff_ne_zero.mpr (nonzero _ (List.mem_of_getElem? sent))
    · obtain ⟨j, less, sentBefore⟩ := behind b member earlier given
      obtain ⟨inside, here⟩ := List.getElem?_eq_some_iff.mp sent
      obtain ⟨insideBefore, there⟩ := List.getElem?_eq_some_iff.mp sentBefore
      rw [← here, ← there]
      exact List.pairwise_iff_getElem.mp increasing j k insideBefore inside less
  rw [if_pos (decide_eq_true above)]

theorem TakesFresh.nonzero (laws : C.Lawful) (seed : C.Rng) {seqs : List UInt32} (takes : TakesFresh C seqs) :
    ∀ seq ∈ seqs, seq ≠ 0 := by
  rintro seq member rfl
  obtain ⟨k, sent⟩ := List.mem_iff_getElem?.mp member
  let prev : HopLink := ⟨1, ⟨.v4 loopback, 0⟩⟩
  let entry : CircuitEntry := .terminal (.zeros 16) (.zeros 32) (.zeros 32) prev 0
  let node : Node C := { Node.spawn C seed with circuits := Table.empty.insert 1 entry }
  let msg : RelayMsg := ⟨0, .drop, 0, sealOnion C [.zeros 32] (.zeros 16) 0 []⟩
  let a : Inbound := ⟨fun _ => .error .timeout, prev.peer, ⟨1, .relay, 0, relayPayload msg⟩⟩
  have stored : node.circuits.get 1 = some entry := Table.get_insert_self ..
  have authentic : entry.authentic C 1 a = some msg := by
    have wellFormed : a.msg? 1 = some msg := by
      rw [Inbound.msg?, if_pos ⟨rfl, rfl⟩, parseRelay_relayPayload]
    have opened := openOnion_sealOnion laws (.zeros 32) [] (.zeros 16) 0 []
    rw [CircuitEntry.authentic, wellFormed, Option.filter_some, CircuitEntry.peels, opened]
    rfl
  have acted := takes node 1 entry stored rfl [] a msg k (by simp) authentic sent (by simp)
  rw [Node.handleAll, List.foldl_nil, Node.actsOn_eq stored rfl, authentic] at acted
  cases acted

theorem neverRepeats_iff (laws : C.Lawful) (seed : C.Rng) {handle : CircuitHandle}
    (injective : Function.Injective (relayNonce C handle.tag 0)) {seqs : List UInt32} :
    NeverRepeats C handle seqs ↔ (∀ seq ∈ seqs, seq ≠ 0) ∧ seqs.Pairwise (· < ·) := by
  constructor
  · intro never
    exact ⟨never.taken.nonzero laws seed, never.increasing⟩
  · rintro ⟨nonzero, increasing⟩
    exact {
      increasing
      ofHop := fun key _ => (increasing.imp UInt32.ne_of_lt).map _ fun seq seq' differ same =>
        differ (injective (Prod.mk.inj same).2)
      ofAll := layers_of_apart injective increasing
      taken := takesFresh_of_increasing increasing nonzero }

theorem neverRepeats_seqAt_iff (laws : C.Lawful) (seed : C.Rng) {handle : CircuitHandle}
    (injective : Function.Injective (relayNonce C handle.tag 0)) {calls : List Nat} (ordered : calls.Pairwise (· < ·)) :
    NeverRepeats C handle (calls.map fun k => UInt32.ofNat (64 + k)) ↔ Spread calls := by
  rw [neverRepeats_iff laws seed injective, List.forall_mem_map, List.pairwise_map, Spread]
  refine and_congr (forall₂_congr fun call _ => not_congr (seqAt_eq_zero_iff call)) ?_
  constructor
  · intro ascending
    exact (ordered.and ascending).imp fun both => (seqAt_lt_iff both.1).mp both.2
  · intro spread
    exact (ordered.and spread).imp fun both => (seqAt_lt_iff both.1).mpr both.2

/-! ## The life of a node -/

namespace Node

theorem handleCreate_seqOrigin (node : Node C) (lookup : Lookup) (src : SocketAddr) (cell : Cell) :
    (node.handleCreate lookup src cell).1.seqOrigin = node.seqOrigin := by
  unfold handleCreate
  generalize node.gather cell = gathered
  obtain ⟨full, frags⟩ := gathered
  cases full with
  | none => rfl
  | some header =>
    dsimp only
    cases processHeader C node.identity header with
    | ok outcome => cases outcome <;> rfl
    | error => rfl
    | panic => rfl

theorem handleCreated_seqOrigin (node : Node C) (src : SocketAddr) (cell : Cell) :
    (node.handleCreated src cell).1.seqOrigin = node.seqOrigin := by
  unfold handleCreated
  split
  · rfl
  · split <;> rfl

theorem handleDestroy_seqOrigin (node : Node C) (src : SocketAddr) (cell : Cell) :
    (node.handleDestroy src cell).1.seqOrigin = node.seqOrigin := by
  unfold handleDestroy
  dsimp only
  split <;> rfl

theorem handleRelay_seqOrigin (node : Node C) (src : SocketAddr) (cell : Cell) :
    (node.handleRelay src cell).1.seqOrigin = node.seqOrigin := by
  unfold handleRelay
  split
  · split <;> rfl
  · rfl

theorem handleCell_seqOrigin (node : Node C) (lookup : Lookup) (src : SocketAddr) (cell : Cell) :
    (node.handleCell lookup src cell).1.seqOrigin = node.seqOrigin := by
  unfold handleCell
  cases cell.cmd with
  | create => exact node.handleCreate_seqOrigin lookup src cell
  | created => exact node.handleCreated_seqOrigin src cell
  | destroy => exact node.handleDestroy_seqOrigin src cell
  | relay => exact node.handleRelay_seqOrigin src cell
  | padding => rfl

theorem send_effects (node : Node C) (handle : CircuitHandle) (stream : UInt16) (rcmd : RCmd) (msg : List UInt8) :
    (node.send handle stream rcmd msg).2.1 = [] ∨ ∃ dst, (node.send handle stream rcmd msg).2.1 =
      [.sendCell dst ⟨handle.cid, .relay, 0, relayPayload ⟨node.seqOrigin, rcmd, stream,
        (layers C handle node.seqOrigin).foldl (fun payload layer => aeadSeal C layer.1 layer.2 payload) msg⟩⟩] := by
  rw [← sealOnion_eq_layers]
  unfold send
  dsimp only
  split
  · exact .inr ⟨_, rfl⟩
  · exact .inl rfl

end Node

namespace Running

theorem Step.seqOrigin {r r' : Running C} {event : Event} (step : Step r event r') :
    r'.node.seqOrigin = r.node.seqOrigin + UInt32.ofNat (r.drawn event).length := by
  have kept {seq : UInt32} (same : seq = r.node.seqOrigin) : seq = r.node.seqOrigin + UInt32.ofNat 0 :=
    same.trans (UInt32.add_zero _).symm
  cases step with
  | recv lookup src cell => exact kept (r.node.handleCell_seqOrigin lookup src cell)
  | build own step =>
    apply kept
    rcases step.moved own with ⟨rng, pending, -, same⟩ | ⟨-, -, rfl⟩
    · rw [same]
    · rfl
  | openStream cid stream tx =>
    apply kept
    simp only [Node.registerStream]
    split <;> rfl
  | send stream rcmd msg _ =>
    simp only [Node.send]
    split <;> rfl
  | close _ =>
    apply kept
    simp only [Node.close]
    split <;> rfl

/-- `pick_origin`: the handle that cover traffic makes of an origin entry. -/
def pickOrigin (cid : UInt32) : CircuitEntry → Option CircuitHandle
  | .origin fwd bwd tag _ _ => some ⟨cid, fwd, bwd, tag⟩
  | _ => none

def Owned (r : Running C) : Prop :=
  ∀ cid entry handle, r.node.circuits.get cid = some entry → pickOrigin cid entry = some handle → r.Holds handle

theorem owned_recv {r : Running C} (owned : r.Owned) (lookup : Lookup) (src : SocketAddr) (cell : Cell) :
    Owned (r.recv lookup src cell) := by
  intro cid entry handle here picked
  have circuits : (r.recv lookup src cell).node.circuits = _ := r.node.handleCell_circuits lookup src cell
  rw [circuits] at here
  cases cmd : cell.cmd with
  | create =>
    rw [cmd] at here
    cases completed : r.node.completes cell with
    | none =>
      rw [completed] at here
      exact owned cid entry handle here picked
    | some outcome =>
      rw [completed] at here
      rcases Table.get_insert_some here with ⟨-, rfl⟩ | ⟨-, before⟩
      · cases outcome <;> cases picked
      · exact owned cid entry handle before picked
  | relay =>
    rw [cmd] at here
    cases found : r.node.relays src cell with
    | none =>
      rw [found] at here
      exact owned cid entry handle here picked
    | some handled =>
      obtain ⟨msg, old, decision⟩ := handled
      obtain ⟨-, stored, -⟩ := Node.relays_some found
      rw [found] at here
      simp only [Decision.get_commit stored] at here
      split at here
      next own =>
        obtain ⟨rfl, -⟩ := own
        rw [← Option.some.inj here] at picked
        refine owned cell.cid old handle stored ?_
        rw [← picked]
        cases old <;> rfl
      next => exact owned cid entry handle here picked
  | destroy =>
    rw [cmd] at here
    exact owned cid entry handle (Table.get_remove_some here) picked
  | created | padding =>
    rw [cmd] at here
    exact owned cid entry handle here picked

theorem Step.owned {r r' : Running C} {event : Event} (step : Step r event r') (owned : r.Owned) : r'.Owned := by
  intro cid entry handle here picked
  have still {other : CircuitHandle} (held : r.Holds other) : r'.Holds other := step.holds held
  cases step with
  | recv lookup src cell => exact still (owned_recv owned lookup src cell cid entry handle here picked)
  | build own step =>
    rcases step.moved own with ⟨rng, pending, -, same⟩ | ⟨-, -, rfl⟩
    · rw [same] at here
      exact still (owned cid entry handle here picked)
    · rcases Table.get_insert_some here with ⟨rfl, rfl⟩ | ⟨-, before⟩
      · rw [← Option.some.inj picked]
        exact ⟨_, Table.get_insert_self ..⟩
      · exact still (owned cid entry handle before picked)
  | openStream c stream tx =>
    simp only [Node.registerStream] at here
    split at here
    next stored =>
      rcases Table.get_insert_some here with ⟨rfl, rfl⟩ | ⟨-, before⟩
      · exact still (owned _ _ handle stored picked)
      · exact still (owned cid entry handle before picked)
    next => exact still (owned cid entry handle here picked)
  | send stream rcmd msg _ =>
    simp only [Node.send] at here
    split at here <;> exact still (owned cid entry handle here picked)
  | close _ =>
    simp only [Node.close] at here
    split at here
    · exact still (owned cid entry handle (Table.get_remove_some here) picked)
    · exact still (owned cid entry handle here picked)

/-- Whatever circuit cover traffic picks, its `send` is one of the steps. -/
theorem picked_mem {seed : C.Rng} {events : List Event} {r : Running C} (run : Run Step (Builds.spawn C seed) events r) {cid : UInt32}
    {entry : CircuitEntry} {handle : CircuitHandle} (stored : r.node.circuits.get cid = some entry)
    (picked : pickOrigin cid entry = some handle) : r.Holds handle := by
  have owned := run.invariant Owned (fun _ _ _ owned step => step.owned owned) fun _ _ _ here => by cases here
  exact owned cid entry handle stored picked

structure Counted (s : Running C × Draws) (events : List Event) : Prop where
  counter : s.1.node.seqOrigin = UInt32.ofNat (64 + (events.filterMap Event.sender?).length)
  draws : s.2 = (events.filterMap Event.sender?).zipIdx.map fun call => (call.1, UInt32.ofNat (64 + call.2))

theorem counted {seed : C.Rng} {s : Running C × Draws} {events : List Event}
    (run : Run (Logged Step drawn) (Builds.spawn C seed, []) events s) : Counted s events := by
  induction run with
  | nil => exact ⟨rfl, rfl⟩
  | @snoc t u events event _ last ih =>
    obtain ⟨counter, draws⟩ := ih
    obtain ⟨step, grown⟩ := last
    have next := step.seqOrigin
    rw [counter] at next
    rw [drawn, counter] at grown
    rw [drawn] at next
    constructor
    · rw [next, List.filterMap_append, List.length_append, List.length_map]
      cases sender : event.sender? with
      | none => simp [sender]
      | some handle =>
        simp only [Option.toList_some, List.length_singleton, List.filterMap_cons, sender, List.filterMap_nil]
        rw [← UInt32.ofNat_add, Nat.add_assoc]
    · rw [grown, draws, List.filterMap_append, List.zipIdx_append, List.map_append]
      cases sender : event.sender? with
      | none => simp [sender]
      | some handle => simp [sender]

theorem seqsOn_eq {seed : C.Rng} {s : Running C × Draws} {events : List Event}
    (run : Run (Logged Step drawn) (Builds.spawn C seed, []) events s) (handle : CircuitHandle) :
    seqsOn handle s.2 = (callsOn handle events).map fun k => UInt32.ofNat (64 + k) := by
  rw [seqsOn, callsOn, (counted run).draws, List.filter_map, List.map_map, List.map_map]
  rfl

theorem callsOn_ordered (handle : CircuitHandle) (events : List Event) : (callsOn handle events).Pairwise (· < ·) := by
  rw [callsOn, List.pairwise_map]
  apply List.Pairwise.filter
  rw [← List.pairwise_map, List.zipIdx_map_snd]
  exact List.pairwise_lt_range'

/-- The numbers on one circuit of any node, over its life: they go up, no pair of key and nonce is used again, and no
fresh cell is taken for a replay, exactly if no call on the circuit comes when the counter stands at 0, and any two are
more than 2 ^ 32 calls apart for each time the counter wraps between them. -/
theorem neverRepeats_iff_spread (laws : C.Lawful) (injective : ∀ tag, Function.Injective (relayNonce C tag 0)) (seed : C.Rng)
    (events : List Event) (r : Running C) (draws : Draws)
    (run : Run (Logged Step drawn) (Builds.spawn C seed, []) events (r, draws)) (handle : CircuitHandle) :
    NeverRepeats C handle (seqsOn handle draws) ↔ Spread (callsOn handle events) := by
  have numbers : seqsOn handle draws = _ := seqsOn_eq run handle
  rw [numbers]
  exact neverRepeats_seqAt_iff laws seed (injective handle.tag) (callsOn_ordered handle events)

end Running

namespace Transparent

open Nbf.Crypto.Transparent

theorem circuit_opens : ∃ events r handle, Run Running.Step (Builds.spawn crates (50 : UInt8)) events r ∧ r.Holds handle ∧
    events.filterMap Event.sender? = [] ∧ events.length < 2 ^ 17 := by
  let first : Running crates := .spawn crates (50 : UInt8)
  obtain ⟨node, linkPub, plan, built, start, waiting, -⟩ :=
    first.node.buildStart_plan lawful pair_honest (pair_ready 0).resolves first.nextTx
  obtain ⟨asked, building, rfl, -, waits⟩ := Builds.run_buildStart (s := first) (i := 0) rfl start
  have building := Running.run_of_builds building fun event member => by
    simp only [List.cons_append, List.mem_cons, List.mem_append, List.mem_replicate, List.not_mem_nil, or_false] at member
    rcases member with rfl | rfl | ⟨-, rfl⟩ | rfl <;> trivial
  -- CREATED comes, the call wakes and stores its entry.
  let created : Cell := ⟨1, .created, 0, []⟩
  obtain ⟨-, oneshots⟩ := asked.recv_created pairLookup (localhost 9100) (show created.cmd = .created from rfl)
  have sent : (asked.recv pairLookup (localhost 9100) created).oneshots.get first.nextTx = some .sent := by
    rw [oneshots, show asked.node.pending.get created.cid = some first.nextTx from waiting]
    exact Table.get_insert_self ..
  have woken := building.snoc (.recv asked pairLookup (localhost 9100) created)
    |>.snoc (.build (by trivial) (.wake waits sent))
    |>.snoc (.build (by trivial) (.store (Table.get_insert_self ..)))
  refine ⟨_, _, _, woken, ⟨0, Table.get_insert_self ..⟩, ?_, ?_⟩
  · have none (events : List BuildEvent) : (events.map Event.build).filterMap Event.sender? = [] := by
      simp [List.filterMap_map, Event.sender?]
    simp only [List.filterMap_append, none]
    rfl
  · have few : (fragment built.header).length < 2 ^ 16 := by
      rw [length_fragment]
      exact (fragCount built.header).toNat_lt
    simp
    omega

theorem run_sends {r : Running crates} {handle : CircuitHandle} (held : r.Holds handle) (count : Nat) :
    ∃ r', Run Running.Step r (List.replicate count (.send handle 0 .drop [])) r' ∧ r'.Holds handle := by
  induction count with
  | zero => exact ⟨r, .nil r, held⟩
  | succ count ih =>
    obtain ⟨r', run, still⟩ := ih
    rw [List.replicate_succ']
    exact ⟨_, .snoc run (.send 0 .drop [] still), still⟩

theorem busy_circuit (count : Nat) : ∃ events r handle draws,
    Run (Logged Running.Step Running.drawn) (.spawn crates (50 : UInt8), []) events (r, draws) ∧
      callsOn handle events = List.range count ∧
      draws = (List.range count).map fun k => (handle, UInt32.ofNat (64 + k)) := by
  obtain ⟨events, r, handle, building, held, silent, -⟩ := circuit_opens
  obtain ⟨r', sending, -⟩ := run_sends held count
  obtain ⟨draws, run⟩ : ∃ draws, Run (Logged Running.Step Running.drawn) _ _ (r', draws) := (building.trans sending).logged []
  have senders : (events ++ List.replicate count (Event.send handle 0 .drop [])).filterMap Event.sender? =
      List.replicate count handle := by
    rw [List.filterMap_append, silent, List.nil_append]
    exact List.filterMap_replicate_of_some rfl
  have numbered : (List.replicate count handle).zipIdx = (List.range count).map fun k => (handle, k) := by
    rw [List.zipIdx_eq_zip_range', List.length_replicate, ← List.range_eq_range']
    apply List.ext_getElem <;> simp
  refine ⟨_, r', handle, draws, run, ?_, ?_⟩
  · rw [callsOn, senders, numbered, List.filter_map, List.map_map]
    simp
  · have numbers : draws = _ := (Running.counted run).draws
    rw [numbers, senders, numbered, List.map_map]
    rfl

/-- Two calls on a new circuit. -/
theorem two_sends_never_repeat : ∃ events r handle,
    Run (Logged Running.Step Running.drawn) (.spawn crates (50 : UInt8), []) events (r, [(handle, 64), (handle, 65)]) ∧
      NeverRepeats crates handle (seqsOn handle [(handle, 64), (handle, 65)]) := by
  obtain ⟨events, r, handle, draws, run, calls, rfl⟩ := busy_circuit 2
  have few : Spread (callsOn handle events) := by
    rw [calls]
    exact spread_of_few (by simp [List.range_succ]) List.pairwise_lt_range
  exact ⟨events, r, handle, run,
    (Running.neverRepeats_iff_spread lawful (relayNonce_injective · 0) (50 : UInt8) _ _ _ run handle).mpr few⟩

/-- The call behind 2 ^ 32 others seals with the number, the keys and the nonces of the first one. -/
theorem wrapped_circuit_repeats : ∃ events r handle draws,
    Run (Logged Running.Step Running.drawn) (.spawn crates (50 : UInt8), []) events (r, draws) ∧
      draws[0]? = some (handle, 64) ∧ draws[2 ^ 32]? = some (handle, 64) ∧ ¬ NeverRepeats crates handle (seqsOn handle draws) := by
  obtain ⟨count, many⟩ : ∃ count, 2 ^ 32 < count := ⟨2 ^ 32 + 1, by omega⟩
  obtain ⟨events, r, handle, draws, run, calls, drawn⟩ := busy_circuit count
  have numberAt (k : Nat) (inside : k < count) : draws[k]? = some (handle, UInt32.ofNat (64 + k)) := by
    rw [drawn, List.getElem?_map, List.getElem?_range inside]
    rfl
  have again : UInt32.ofNat (64 + 2 ^ 32) = 64 := rfl
  have second := numberAt (2 ^ 32) many
  rw [again] at second
  refine ⟨events, r, handle, draws, run, numberAt 0 (by omega), second, fun never => ?_⟩
  have numbers : seqsOn handle draws = _ := Running.seqsOn_eq run handle
  rw [numbers, calls] at never
  have spread := (neverRepeats_seqAt_iff lawful (50 : UInt8) (relayNonce_injective _ 0) List.pairwise_lt_range).mp never
  -- One lap lies between the two calls, and no more than one.
  have inside : 2 ^ 32 < (List.range count).length := List.length_range ▸ many
  have apart := List.pairwise_iff_getElem.mp spread.2 0 (2 ^ 32) (by omega) inside (by omega)
  rw [List.getElem_range, List.getElem_range] at apart
  have wraps : laps (2 ^ 32) - laps 0 = 1 := rfl
  rw [wraps] at apart
  omega

end Transparent
end Nbf.Net

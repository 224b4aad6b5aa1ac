import Nbf.Library.Ascending
import Nbf.Net.Tampering

/-! Sends on one circuit that overtake each other.

`CircuitHandle::send` draws its number first, then waits for the circuits' lock,
and puts its cell on the link last; a cover cell and an echo are two such sends.
The links lose nothing and keep order, and each hop handles its cells one after
another. Only the way out is here: a reply changes no `last_fwd`.
-/

set_option autoImplicit false

namespace Nbf.Net

open Nbf.Library Nbf.Crypto

variable (C : Crates)

/-! ## The line of hops -/

/-- One hop, the cells on the link to it, and the numbers of the forward cells it has accepted. -/
structure Station where
  hop : Hop
  queue : List Cell
  accepted : List UInt32

def Station.push (effects : List Effect) (st : Station) : Station :=
  { st with queue := st.queue ++ effects.filterMap fun
      | .sendCell dst cell => if dst = st.hop.addr then some cell else none
      | _ => none }

def Station.handle (tag : Octets 16) (prev : SocketAddr) (next? : Option Hop) (st : Station) : Station × List Effect :=
  match st.queue with
  | [] => (st, [])
  | cell :: queue =>
    if cell.cid ≠ st.hop.cid then ({ st with queue }, []) else
    match parseRelay cell.payload with
    | .ok msg =>
      let decision := relayDecide C (st.hop.entry tag prev next?) prev msg
      if decision.accepted then
        ({ hop := st.hop.peeled msg.seq, queue, accepted := st.accepted ++ [msg.seq] }, decision.effects)
      else ({ st with queue }, decision.effects)
    | _ => ({ st with queue }, [])

def handleAt (tag : Octets 16) : SocketAddr → Nat → List Station → List Station
  | _, _, [] => []
  | prev, 0, st :: rest =>
    let (st, effects) := st.handle C tag prev (rest.head?.map Station.hop)
    st :: rest.modifyHead (Station.push effects)
  | _, k + 1, st :: rest => st :: handleAt tag st.hop.addr k rest

def Ask.cell (cid : UInt32) (keys : List (Octets 32)) (tag : Octets 16) (ask : Ask) : Cell :=
  ⟨cid, .relay, 0, relayPayload ⟨ask.seq, ask.rcmd, ask.stream, sealOnion C keys tag ask.seq ask.msg⟩⟩

/-! ## The sends -/

inductive SendStage where
  | drawn (ask : Ask)
  | addressed (ask : Ask) (next : HopLink)
  | sent
  | noSession

structure Sends where
  origin : Node C
  sends : Table Nat SendStage
  /-- What has been put on the first link, in order. -/
  sent : List Ask
  stations : List Station

inductive SendEvent where
  | draw (i : Nat) (stream : UInt16) (rcmd : RCmd) (msg : List UInt8)
  | address (i : Nat)
  | transmit (i : Nat)
  | handle (k : Nat)
  /-- What the origin does for other circuits; a send there draws a number too. -/
  | elsewhere

variable {C}

namespace Sends

variable (originAddr : SocketAddr) (handle : CircuitHandle)

inductive Step : Sends C → SendEvent → Sends C → Prop where
  | draw {s : Sends C} {i : Nat} (stream : UInt16) (rcmd : RCmd) {msg : List UInt8} :
      s.sends.get i = none → msg.length ≤ msgMax →
      Step s (.draw i stream rcmd msg) { s with
        origin := { s.origin with seqOrigin := s.origin.seqOrigin + 1 }
        sends := s.sends.insert i (.drawn ⟨s.origin.seqOrigin, rcmd, stream, msg⟩) }
  | address {s : Sends C} {i : Nat} {ask : Ask} : s.sends.get i = some (.drawn ask) →
      Step s (.address i) { s with
        sends := s.sends.insert i (match s.origin.circuits.get handle.cid with
          | some (.origin _ _ _ next _) => .addressed ask next
          | _ => .noSession) }
  | transmit {s : Sends C} {i : Nat} {ask : Ask} {next : HopLink} : s.sends.get i = some (.addressed ask next) →
      Step s (.transmit i) { s with
        sends := s.sends.insert i .sent
        sent := s.sent ++ [ask]
        stations := s.stations.modifyHead (Station.push [.sendCell next.peer (ask.cell C handle.cid handle.fwd handle.tag)]) }
  | handle (s : Sends C) (k : Nat) :
      Step s (.handle k) { s with stations := handleAt C handle.tag originAddr k s.stations }
  | elsewhere {s : Sends C} {origin : Node C} :
      origin.circuits.get handle.cid = s.origin.circuits.get handle.cid →
      origin.seqOrigin = s.origin.seqOrigin ∨ origin.seqOrigin = s.origin.seqOrigin + 1 →
      Step s .elsewhere { s with origin }

def Drained (s : Sends C) : Prop := ∀ st ∈ s.stations, st.queue = []

def AllAccepted (s : Sends C) : Prop := ∀ st ∈ s.stations, st.accepted = s.sent.map Ask.seq

end Sends

/-! ## One hop -/

def Ask.number (ask : Ask) : Nat := ask.seq.toNat

theorem Station.push_nil (st : Station) : st.push [] = st := by
  simp [push]

theorem Station.push_send (st : Station) (cell : Cell) :
    st.push [.sendCell st.hop.addr cell] = { st with queue := st.queue ++ [cell] } := by
  simp [push]

/-- What a hop does with its next cell is what `relay::handle` does at a node that holds its entry. -/
theorem Station.handle_node {node : Node C} {tag : Octets 16} {prev : SocketAddr} {next? : Option Hop} {st : Station} {cell : Cell}
    {queue : List Cell} (next : st.queue = cell :: queue) (own : cell.cid = st.hop.cid)
    (stored : node.circuits.get cell.cid = some (st.hop.entry tag prev next?)) :
    (node.handleRelay prev cell).1.circuits.get cell.cid = some ((st.handle C tag prev next?).1.hop.entry tag prev next?) ∧
      (node.handleRelay prev cell).2 = (st.handle C tag prev next?).2 := by
  simp only [handle, next, own, ne_eq, not_true, if_false, Node.handleRelay]
  cases parseRelay cell.payload with
  | panic => exact ⟨own ▸ stored, rfl⟩
  | error => exact ⟨own ▸ stored, rfl⟩
  | ok msg =>
    rw [own] at stored
    simp only [stored]
    by_cases accepted : (relayDecide C (st.hop.entry tag prev next?) prev msg).accepted
    · rw [if_pos accepted]
      refine ⟨?_, rfl⟩
      rw [Decision.get_commit stored, if_pos ⟨rfl, accepted⟩]
      cases next? <;> rfl
    · rw [if_neg accepted]
      refine ⟨?_, rfl⟩
      rw [Decision.get_commit stored, if_neg fun both => accepted both.2, stored]

/-- A hop takes an honest cell: it accepts it and sends it on, or drops it as a replay. -/
theorem Station.handle_ask (laws : C.Lawful) {tag : Octets 16} (prev : SocketAddr) {st : Station} {ask : Ask}
    {keys : List (Octets 32)} {queue : List Cell} (next? : Option Hop) (last : next? = none → keys = [])
    (next : st.queue = ask.cell C st.hop.cid (st.hop.kFwd :: keys) tag :: queue) :
    ∃ effects, st.handle C tag prev next? =
        (if st.hop.lastFwd < ask.seq then { hop := st.hop.peeled ask.seq, queue, accepted := st.accepted ++ [ask.seq] }
          else { st with queue }, effects) ∧
      ∀ onward, next? = some onward → effects =
        if st.hop.lastFwd < ask.seq then [.sendCell onward.addr (ask.cell C onward.cid keys tag)] else [] := by
  simp only [handle, next, Ask.cell, ne_eq, not_true, if_false, parseRelay_relayPayload]
  by_cases above : st.hop.lastFwd < ask.seq
  · rw [if_pos above]
    cases next? with
    | none =>
      obtain rfl := last rfl
      obtain ⟨reply?, decision⟩ := relayDecide_end_accepts laws tag prev st.hop ask.msg ask.rcmd ask.stream above
      rw [decision]
      exact ⟨_, rfl, fun onward same => by cases same⟩
    | some onward =>
      rw [relayDecide_out laws tag prev st.hop ask.msg ask.rcmd ask.stream onward keys above]
      refine ⟨_, rfl, fun onward' same => ?_⟩
      obtain rfl := Option.some.inj same
      rw [if_pos above]
      rfl
  · rw [if_neg above, relayDecide_replay tag prev next? (UInt32.not_lt.mp above)]
    exact ⟨_, rfl, fun _ _ => (if_neg above).symm⟩

/-! ## The whole line -/

def keysOf (stations : List Station) : List (Octets 32) := stations.map fun st => st.hop.kFwd

@[simp] theorem keysOf_push (effects : List Effect) (stations : List Station) :
    keysOf (stations.modifyHead (Station.push effects)) = keysOf stations := by
  cases stations <;> rfl

theorem Station.hop_handle (tag : Octets 16) (prev : SocketAddr) (next? : Option Hop) (st : Station) :
    ∃ lastFwd, (st.handle C tag prev next?).1.hop = st.hop.peeled lastFwd := by
  unfold handle
  split
  · exact ⟨st.hop.lastFwd, rfl⟩
  split
  · exact ⟨st.hop.lastFwd, rfl⟩
  split
  next msg _ =>
    dsimp only
    split
    · exact ⟨msg.seq, rfl⟩
    · exact ⟨st.hop.lastFwd, rfl⟩
  · exact ⟨st.hop.lastFwd, rfl⟩

theorem keysOf_handleAt (tag : Octets 16) (prev : SocketAddr) (k : Nat) (stations : List Station) :
    keysOf (handleAt C tag prev k stations) = keysOf stations := by
  induction stations generalizing prev k with
  | nil => rw [handleAt]
  | cons st rest ih =>
    cases k with
    | zero =>
      obtain ⟨lastFwd, same⟩ := st.hop_handle (C := C) tag prev (rest.head?.map Station.hop)
      have kept : (st.handle C tag prev (rest.head?.map Station.hop)).1.hop.kFwd = st.hop.kFwd := by rw [same, Hop.peeled]
      exact congrArg₂ List.cons kept (keysOf_push _ rest)
    | succ k => exact congrArg (List.cons st.hop.kFwd) (ih st.hop.addr k)

/-- What has been sent into a line of hops, and where it is: of what the first hop has taken, it has accepted and sent
on what lies above all before; the rest waits in its queue. -/
inductive Carries (C : Crates) (tag : Octets 16) : List Ask → List Station → Prop where
  | nil (sent : List Ask) : Carries C tag sent []
  | cons {st : Station} {rest : List Station} (taken waiting : List Ask) :
      st.queue = waiting.map (Ask.cell C st.hop.cid (st.hop.kFwd :: keysOf rest) tag) →
      st.accepted = (climb Ask.number 0 taken).map Ask.seq → st.hop.lastFwd.toNat = summit Ask.number 0 taken →
      Carries C tag (climb Ask.number 0 taken) rest → Carries C tag (taken ++ waiting) (st :: rest)

namespace Carries

variable {tag : Octets 16} {sent : List Ask} {st : Station} {rest : List Station}

theorem push (carries : Carries C tag sent (st :: rest)) (ask : Ask) : Carries C tag (sent ++ [ask])
    (st.push [.sendCell st.hop.addr (ask.cell C st.hop.cid (st.hop.kFwd :: keysOf rest) tag)] :: rest) := by
  cases carries with
  | cons taken waiting queue accepted mark onward =>
    rw [List.append_assoc, Station.push_send]
    refine .cons taken (waiting ++ [ask]) ?_ accepted mark onward
    rw [List.map_append, ← queue, List.map_singleton]

theorem pass {effects : List Effect} {ask : Ask} (carries : Carries C tag sent rest)
    (onward : ∀ next, rest.head?.map Station.hop = some next →
      effects = [.sendCell next.addr (ask.cell C next.cid (keysOf rest) tag)]) :
    Carries C tag (sent ++ [ask]) (rest.modifyHead (Station.push effects)) := by
  cases rest with
  | nil => exact .nil _
  | cons next rest =>
    rw [onward next.hop rfl]
    exact carries.push ask

theorem push_none {effects : List Effect} (rest : List Station)
    (silent : ∀ next, rest.head?.map Station.hop = some next → effects = []) : rest.modifyHead (Station.push effects) = rest := by
  cases rest with
  | nil => rfl
  | cons next rest => rw [silent next.hop rfl, List.modifyHead_cons, Station.push_nil]

theorem handle_first (laws : C.Lawful) (carries : Carries C tag sent (st :: rest)) (prev : SocketAddr) :
    Carries C tag sent (handleAt C tag prev 0 (st :: rest)) := by
  cases carries with
  | cons taken waiting queue accepted mark onward =>
    cases waiting with
    | nil =>
      have idle : st.handle C tag prev (rest.head?.map Station.hop) = (st, []) := by
        unfold Station.handle
        rw [queue]
        rfl
      rw [handleAt, idle]
      dsimp only
      rw [push_none rest fun _ _ => rfl]
      exact .cons taken [] queue accepted mark onward
    | cons ask waiting =>
      have last (none : rest.head?.map Station.hop = none) : keysOf rest = [] := by
        cases rest with
        | nil => rfl
        | cons next rest => cases none
      obtain ⟨effects, handled, sends⟩ := Station.handle_ask laws prev (rest.head?.map Station.hop) last queue
      have moved : taken ++ ask :: waiting = (taken ++ [ask]) ++ waiting := by simp
      rw [handleAt, handled, moved]
      dsimp only
      by_cases above : st.hop.lastFwd < ask.seq
      · have higher : summit Ask.number 0 taken < ask.number := by
          rw [← mark]
          exact UInt32.lt_iff_toNat_lt.mp above
        rw [if_pos above]
        refine .cons (taken ++ [ask]) waiting ?_ ?_ ?_ ?_
        · rw [keysOf_push]
          rfl
        · rw [climb_snoc, if_pos higher, List.map_append, accepted, List.map_singleton]
        · rw [summit_snoc, if_pos higher]
          rfl
        · rw [climb_snoc, if_pos higher]
          refine onward.pass fun next here => ?_
          rw [sends next here, if_pos above]
      · have lower : ¬ summit Ask.number 0 taken < ask.number := by
          rw [← mark]
          exact fun higher => above (UInt32.lt_iff_toNat_lt.mpr higher)
        rw [if_neg above, push_none rest fun next here => (sends next here).trans (if_neg above)]
        refine .cons (taken ++ [ask]) waiting rfl ?_ ?_ ?_
        · rw [climb_snoc, if_neg lower, List.append_nil, accepted]
        · rw [summit_snoc, if_neg lower]
          exact mark
        · rw [climb_snoc, if_neg lower, List.append_nil]
          exact onward

theorem handle (laws : C.Lawful) {stations : List Station} (carries : Carries C tag sent stations) (prev : SocketAddr) (k : Nat) :
    Carries C tag sent (handleAt C tag prev k stations) := by
  induction carries generalizing prev k with
  | nil sent =>
    rw [handleAt]
    exact .nil sent
  | @cons st rest taken waiting queue accepted mark onward ih =>
    cases k with
    | zero => exact (Carries.cons taken waiting queue accepted mark onward).handle_first laws prev
    | succ k =>
      refine .cons taken waiting ?_ accepted mark (ih st.hop.addr k)
      rw [queue, keysOf_handleAt]

/-- With nothing on its way, every hop has accepted what climbs. -/
theorem accepted_of_drained {stations : List Station} (carries : Carries C tag sent stations)
    (drained : ∀ st ∈ stations, st.queue = []) (st : Station) (member : st ∈ stations) :
    st.accepted = (climb Ask.number 0 sent).map Ask.seq := by
  induction carries with
  | nil => cases member
  | @cons first rest taken waiting queue accepted mark onward ih =>
    obtain rfl : waiting = [] := List.map_eq_nil_iff.mp (queue ▸ drained first List.mem_cons_self)
    rw [List.append_nil]
    rcases List.mem_cons.mp member with rfl | later
    · exact accepted
    · rw [ih (fun st member => drained st (List.mem_cons_of_mem _ member)) later, climb_climb]

theorem all_accepted_iff {stations : List Station} (carries : Carries C tag sent stations) (drained : ∀ st ∈ stations, st.queue = [])
    (nonempty : stations ≠ []) : (∀ st ∈ stations, st.accepted = sent.map Ask.seq) ↔ Ascends Ask.number 0 sent := by
  rw [← climb_eq_self_iff]
  constructor
  · intro all
    obtain ⟨st, member⟩ := List.exists_mem_of_ne_nil stations nonempty
    have same := (carries.accepted_of_drained drained st member).symm.trans (all st member)
    refine (climb_sublist 0 sent).eq_of_length ?_
    rw [← List.length_map Ask.seq, same, List.length_map]
  · intro all st member
    rw [carries.accepted_of_drained drained st member, all]

theorem fresh (tag : Octets 16) (hops : List Hop) (unused : ∀ hop ∈ hops, hop.lastFwd = 0) :
    Carries C tag [] (hops.map fun hop => ⟨hop, [], []⟩) := by
  induction hops with
  | nil => exact .nil []
  | cons hop hops ih =>
    refine .cons [] [] rfl rfl ?_ (ih fun later member => unused later (List.mem_cons_of_mem _ member))
    rw [unused hop List.mem_cons_self]
    rfl

end Carries

/-! ## Links that run empty -/

theorem Station.queue_handle (tag : Octets 16) (prev : SocketAddr) (next? : Option Hop) (st : Station) :
    (st.handle C tag prev next?).1.queue = st.queue.tail := by
  unfold handle
  split
  next empty => rw [empty, List.tail_nil]
  next cell queue here =>
    rw [here, List.tail_cons]
    split
    · rfl
    split
    · dsimp only
      split <;> rfl
    · rfl

def handleAll (C : Crates) (tag : Octets 16) (prev : SocketAddr) (ks : List Nat) (stations : List Station) : List Station :=
  ks.foldl (fun stations k => handleAt C tag prev k stations) stations

theorem handleAll_append (tag : Octets 16) (prev : SocketAddr) (ks ks' : List Nat) (stations : List Station) :
    handleAll C tag prev (ks ++ ks') stations = handleAll C tag prev ks' (handleAll C tag prev ks stations) :=
  List.foldl_append

theorem handleAll_later (tag : Octets 16) (prev : SocketAddr) (ks : List Nat) (st : Station) (rest : List Station) :
    handleAll C tag prev (ks.map (· + 1)) (st :: rest) = st :: handleAll C tag st.hop.addr ks rest := by
  induction ks generalizing rest with
  | nil => rfl
  | cons k ks ih => exact ih _

theorem drain_first (C : Crates) (tag : Octets 16) (prev : SocketAddr) (st : Station) (rest : List Station) :
    ∃ n st' rest', handleAll C tag prev (List.replicate n 0) (st :: rest) = st' :: rest' ∧ st'.queue = [] ∧
      rest'.length = rest.length := by
  generalize size : st.queue.length = n
  induction n generalizing st rest with
  | zero => exact ⟨0, st, rest, rfl, List.length_eq_zero_iff.mp size, rfl⟩
  | succ n ih =>
    let handled := st.handle C tag prev (rest.head?.map Station.hop)
    have shorter : handled.1.queue.length = n := by
      rw [Station.queue_handle, List.length_tail, size]
      rfl
    obtain ⟨m, st', rest', drained, empty, same⟩ := ih handled.1 (rest.modifyHead (Station.push handled.2)) shorter
    refine ⟨m + 1, st', rest', drained, empty, same.trans ?_⟩
    exact List.length_modifyHead

theorem drain (C : Crates) (tag : Octets 16) (prev : SocketAddr) (stations : List Station) :
    ∃ ks, ∀ st ∈ handleAll C tag prev ks stations, st.queue = [] := by
  generalize size : stations.length = n
  induction n generalizing prev stations with
  | zero =>
    rw [List.length_eq_zero_iff.mp size]
    exact ⟨[], by simp [handleAll]⟩
  | succ n ih =>
    cases stations with
    | nil => cases size
    | cons st rest =>
      obtain ⟨m, st', rest', first, empty, same⟩ := drain_first C tag prev st rest
      obtain ⟨ks, later⟩ := ih st'.hop.addr rest' (same.trans (Nat.succ.inj size))
      refine ⟨List.replicate m 0 ++ ks.map (· + 1), ?_⟩
      rw [handleAll_append, first, handleAll_later]
      exact List.forall_mem_cons.mpr ⟨empty, later⟩

/-! ## Runs -/

/-- The origin's entry leads to the first hop, and the cells are sealed for the hops of the line. -/
structure Sends.Linked (handle : CircuitHandle) (first : SocketAddr) (s : Sends C) : Prop where
  entry : ∃ streams, s.origin.circuits.get handle.cid =
    some (.origin handle.fwd handle.bwd handle.tag ⟨handle.cid, first⟩ streams)
  head : ∃ st rest, s.stations = st :: rest ∧ st.hop.addr = first ∧ st.hop.cid = handle.cid
  keys : handle.fwd = keysOf s.stations
  addressed : ∀ i ask next, s.sends.get i = some (.addressed ask next) → next.peer = first
  carries : Carries C handle.tag s.sent s.stations

namespace Sends

variable {originAddr : SocketAddr} {handle : CircuitHandle} {first : SocketAddr} {s t : Sends C}

theorem Linked.step (laws : C.Lawful) {event : SendEvent} (linked : s.Linked handle first)
    (step : Step originAddr handle s event t) : t.Linked handle first := by
  obtain ⟨st, rest, line, addr, cid⟩ := linked.head
  cases step with
  | @draw i stream rcmd msg free short =>
    refine ⟨linked.entry, linked.head, linked.keys, fun j ask next here => ?_, linked.carries⟩
    rcases Table.get_insert_some here with ⟨-, same⟩ | ⟨-, before⟩
    · cases same
    · exact linked.addressed j ask next before
  | @address i ask drawn =>
    refine ⟨linked.entry, linked.head, linked.keys, fun j ask' next here => ?_, linked.carries⟩
    obtain ⟨streams, entry⟩ := linked.entry
    rcases Table.get_insert_some here with ⟨-, same⟩ | ⟨-, before⟩
    · rw [entry] at same
      cases same
      rfl
    · exact linked.addressed j ask' next before
  | @transmit i ask next here =>
    have peer := linked.addressed i ask next here
    have keys := linked.keys
    have carries := linked.carries
    simp only [line] at keys carries ⊢
    refine ⟨linked.entry, ⟨_, rest, rfl, addr, cid⟩, keys, fun j ask' next' there => ?_, ?_⟩
    · rcases Table.get_insert_some there with ⟨-, same⟩ | ⟨-, before⟩
      · cases same
      · exact linked.addressed j ask' next' before
    · rw [peer, ← addr, ← cid, keys]
      exact carries.push ask
  | handle k =>
    refine ⟨linked.entry, ?_, ?_, linked.addressed, linked.carries.handle laws originAddr k⟩
    · dsimp only
      rw [line]
      cases k with
      | zero =>
        obtain ⟨lastFwd, same⟩ := st.hop_handle (C := C) handle.tag originAddr (rest.head?.map Station.hop)
        exact ⟨_, _, rfl, (congrArg Hop.addr same).trans addr, (congrArg Hop.cid same).trans cid⟩
      | succ k => exact ⟨st, _, rfl, addr, cid⟩
    · rw [linked.keys, keysOf_handleAt]
  | elsewhere same _ =>
    obtain ⟨streams, entry⟩ := linked.entry
    exact ⟨⟨streams, same.trans entry⟩, linked.head, linked.keys, linked.addressed, linked.carries⟩

/-- A circuit as `build_circuit` and the hops have left it: nothing is on its way, and no hop has peeled a cell. -/
def start (origin : Node C) (hops : List Hop) : Sends C where
  origin := origin
  sends := .empty
  sent := []
  stations := hops.map fun hop => ⟨hop, [], []⟩

structure Unused (handle : CircuitHandle) (origin : Node C) (first : Hop) (rest : List Hop) : Prop where
  entry : ∃ streams, origin.circuits.get handle.cid =
    some (.origin handle.fwd handle.bwd handle.tag ⟨handle.cid, first.addr⟩ streams)
  link : first.cid = handle.cid
  keys : handle.fwd = (first :: rest).map Hop.kFwd
  marks : ∀ hop ∈ first :: rest, hop.lastFwd = 0

theorem Unused.linked {origin : Node C} {firstHop : Hop} {rest : List Hop} (unused : Unused handle origin firstHop rest) :
    (start origin (firstHop :: rest)).Linked handle firstHop.addr where
  entry := unused.entry
  head := ⟨_, _, rfl, rfl, unused.link⟩
  keys := by
    rw [unused.keys, keysOf, start, List.map_map]
    rfl
  addressed _ _ _ here := by cases here
  carries := .fresh handle.tag _ unused.marks

theorem run_drain (originAddr : SocketAddr) (handle : CircuitHandle) (s : Sends C) :
    ∃ ks : List Nat, ∃ t, Run (Step originAddr handle) s (ks.map .handle) t ∧ t.Drained ∧ t.sent = s.sent := by
  have run (ks : List Nat) (s : Sends C) : Run (Step originAddr handle) s (ks.map .handle)
      { s with stations := handleAll C handle.tag originAddr ks s.stations } := by
    induction ks generalizing s with
    | nil => exact .nil s
    | cons k ks ih => exact (ih _).cons (.handle s k)
  obtain ⟨ks, drained⟩ := drain C handle.tag originAddr s.stations
  exact ⟨ks, _, run ks s, drained, rfl⟩

/-- Whatever sends there are on a circuit and however their steps interleave: what has gone out arrives, and once it
has, every hop has accepted all of it exactly if it went out in ascending order of its numbers. -/
theorem all_accepted_iff_ascending (laws : C.Lawful) (originAddr : SocketAddr) (handle : CircuitHandle) (origin : Node C)
    (firstHop : Hop) (rest : List Hop) (unused : Unused handle origin firstHop rest) (events : List SendEvent) (s : Sends C)
    (run : Run (Step originAddr handle) (start origin (firstHop :: rest)) events s) :
    (∃ ks : List Nat, ∃ t, Run (Step originAddr handle) s (ks.map .handle) t ∧ t.Drained ∧ t.sent = s.sent) ∧
      (s.Drained → (s.AllAccepted ↔ Ascends Ask.number 0 s.sent)) := by
  refine ⟨run_drain originAddr handle s, fun drained => ?_⟩
  have linked := run.invariant (·.Linked handle firstHop.addr) (fun _ _ _ linked step => linked.step laws step) unused.linked
  obtain ⟨st, later, line, -⟩ := linked.head
  exact linked.carries.all_accepted_iff drained (by simp [line])

theorem step_address {i : Nat} {ask : Ask} {next : HopLink} {fwd bwd : List (Octets 32)} {tag : Octets 16}
    {streams : Table UInt16 StreamTx} (drawn : s.sends.get i = some (.drawn ask))
    (entry : s.origin.circuits.get handle.cid = some (.origin fwd bwd tag next streams)) :
    Step originAddr handle s (.address i) { s with sends := s.sends.insert i (.addressed ask next) } := by
  have step : Step originAddr handle s (.address i) _ := .address drawn
  rwa [entry] at step

/-- An uninterrupted send is `CircuitHandle::send`. -/
theorem run_send (originAddr : SocketAddr) (i : Nat) {stream : UInt16} {rcmd : RCmd} {msg : List UInt8} {node : Node C}
    {effects : List Effect} (free : s.sends.get i = none) (short : msg.length ≤ msgMax)
    (sent : s.origin.send handle stream rcmd msg = (node, effects, .ok ())) :
    ∃ t, Run (Step originAddr handle) s [.draw i stream rcmd msg, .address i, .transmit i] t ∧ t.origin = node ∧
      t.sent = s.sent ++ [⟨s.origin.seqOrigin, rcmd, stream, msg⟩] ∧
      t.stations = s.stations.modifyHead (Station.push effects) := by
  unfold Node.send at sent
  dsimp only at sent
  split at sent
  next fwd bwd tag next streams entry =>
    cases sent
    have drawn : Step originAddr handle s (.draw i stream rcmd msg) _ := .draw stream rcmd free short
    have addressed := (Run.single drawn).snoc (step_address (Table.get_insert_self ..) entry)
    exact ⟨_, addressed.snoc (.transmit (Table.get_insert_self ..)), rfl, rfl, rfl⟩
  next => cases sent

theorem run_two_addressed (originAddr : SocketAddr) (handle : CircuitHandle) {next : HopLink} {fwd bwd : List (Octets 32)}
    {tag : Octets 16} {streams : Table UInt16 StreamTx} (idle : s.sends = .empty)
    (entry : s.origin.circuits.get handle.cid = some (.origin fwd bwd tag next streams)) (stream stream' : UInt16)
    (rcmd rcmd' : RCmd) (msg msg' : List UInt8) (short : msg.length ≤ msgMax) (short' : msg'.length ≤ msgMax) :
    ∃ t, Run (Step originAddr handle) s [.draw 0 stream rcmd msg, .draw 1 stream' rcmd' msg', .address 0, .address 1] t ∧
      t.sends.get 0 = some (.addressed ⟨s.origin.seqOrigin, rcmd, stream, msg⟩ next) ∧
      t.sends.get 1 = some (.addressed ⟨s.origin.seqOrigin + 1, rcmd', stream', msg'⟩ next) ∧ t.sent = s.sent := by
  have zero : s.sends.get 0 = none := by rw [idle, Table.get_empty]
  have one : s.sends.get 1 = none := by rw [idle, Table.get_empty]
  have draw : Step originAddr handle s (.draw 0 stream rcmd msg) _ := .draw stream rcmd zero short
  have drawn := (Run.single draw).snoc (.draw (i := 1) stream' rcmd' ((Table.get_insert_of_ne _ _ (by decide)).trans one) short')
  have known := drawn.snoc (step_address (i := 0) ((Table.get_insert_of_ne _ _ (by decide)).trans (Table.get_insert_self ..)) entry)
  have both := known.snoc (step_address (i := 1) ((Table.get_insert_of_ne _ _ (by decide)).trans (Table.get_insert_self ..)) entry)
  exact ⟨_, both, (Table.get_insert_of_ne _ _ (by decide)).trans (Table.get_insert_self ..), Table.get_insert_self .., rfl⟩

theorem run_transmits (originAddr : SocketAddr) (handle : CircuitHandle) {i j : Nat} (apart : j ≠ i) {ask ask' : Ask} {next next' : HopLink}
    (one : s.sends.get i = some (.addressed ask next)) (two : s.sends.get j = some (.addressed ask' next')) :
    ∃ t, Run (Step originAddr handle) s [.transmit i, .transmit j] t ∧ t.sent = s.sent ++ [ask, ask'] := by
  have first : Step originAddr handle s (.transmit i) _ := .transmit one
  exact ⟨_, (Run.single first).snoc (.transmit ((Table.get_insert_of_ne _ _ apart).trans two)), List.append_assoc ..⟩

end Sends
namespace Transparent

open Nbf.Crypto.Transparent

theorem echo_unused : Sends.Unused echoHandle echoOrigin nearHop [farHop 1] where
  entry := ⟨.empty, rfl⟩
  link := rfl
  keys := rfl
  marks := by
    simp only [List.forall_mem_cons]
    exact ⟨rfl, rfl, by simp⟩

def coverAsk : Ask := ⟨65, .data, 0, List.replicate 64 0⟩

theorem echo_and_cover : ∃ s next, Run (Sends.Step (localhost 9000) echoHandle) (.start echoOrigin [nearHop, farHop 1])
      [.draw 0 1 .echo [104, 105], .draw 1 0 .data (List.replicate 64 0), .address 0, .address 1] s ∧
    s.sends.get 0 = some (.addressed echoAsk next) ∧ s.sends.get 1 = some (.addressed coverAsk next) ∧ s.sent = [] := by
  have entry : echoOrigin.circuits.get echoHandle.cid = some (.origin _ _ _ _ _) := rfl
  obtain ⟨s, run, echo, cover, nothing⟩ := Sends.run_two_addressed (s := .start echoOrigin [nearHop, farHop 1])
    (localhost 9000) echoHandle rfl entry 1 0 .echo .data [104, 105] (List.replicate 64 0) (by decide) (by decide)
  exact ⟨s, _, run, echo, cover, nothing⟩

/-- The two put their cells on the link in the order of their numbers. -/
theorem echo_all_accepted : ∃ events s,
    Run (Sends.Step (localhost 9000) echoHandle) (.start echoOrigin [nearHop, farHop 1]) events s ∧
      s.sent = [echoAsk, coverAsk] ∧ s.AllAccepted := by
  obtain ⟨ready, next, run, echo, cover, nothing⟩ := echo_and_cover
  obtain ⟨sent, run', asked⟩ := Sends.run_transmits (localhost 9000) echoHandle (by decide) echo cover
  obtain ⟨ks, t, more, drained, same⟩ := Sends.run_drain (localhost 9000) echoHandle sent
  have whole := (run.trans run').trans more
  have sequence : t.sent = [echoAsk, coverAsk] := by rw [same, asked, nothing, List.nil_append]
  refine ⟨_, t, whole, sequence, ?_⟩
  refine ((Sends.all_accepted_iff_ascending lawful _ _ _ _ _ echo_unused _ t whole).2 drained).mpr ?_
  rw [sequence]
  exact ⟨by decide, by decide⟩

/-- The cover loop has drawn its number after the echo and sends before it; no hop accepts the echo. -/
theorem cover_overtakes_echo : ∃ events s,
    Run (Sends.Step (localhost 9000) echoHandle) (.start echoOrigin [nearHop, farHop 1]) events s ∧ s.Drained ∧
      s.sent = [coverAsk, echoAsk] ∧ (∀ st ∈ s.stations, st.accepted = [65]) ∧ ¬ s.AllAccepted := by
  obtain ⟨ready, next, run, echo, cover, nothing⟩ := echo_and_cover
  obtain ⟨sent, run', asked⟩ := Sends.run_transmits (localhost 9000) echoHandle (by decide) cover echo
  obtain ⟨ks, t, more, drained, same⟩ := Sends.run_drain (localhost 9000) echoHandle sent
  have whole := (run.trans run').trans more
  have linked := whole.invariant (·.Linked echoHandle nearHop.addr) (fun _ _ _ linked step => linked.step lawful step)
    echo_unused.linked
  have sequence : t.sent = [coverAsk, echoAsk] := by rw [same, asked, nothing, List.nil_append]
  have accepted (st : Station) (member : st ∈ t.stations) : st.accepted = [65] := by
    rw [linked.carries.accepted_of_drained drained st member, sequence]
    rfl
  refine ⟨_, t, whole, drained, sequence, accepted, fun all => ?_⟩
  obtain ⟨st, rest, line, -⟩ := linked.head
  have member : st ∈ t.stations := line ▸ List.mem_cons_self
  have both := (accepted st member).symm.trans (all st member)
  rw [sequence] at both
  cases both

end Transparent
end Nbf.Net

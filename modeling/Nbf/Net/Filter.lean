import Nbf.Library.Ascending
import Nbf.Net.Tampering

/-! Sequence numbers over any sequence of cells.

`replay.rs` asks for numbers that go up on every circuit, in each direction, at
each hop. A hop checks the forward ones in place, with the test before and the
update behind the opening of the layer. The origin keeps nothing of the replies
it has taken.
-/

set_option autoImplicit false

namespace Nbf.Crypto

open Nbf.Library

/-- `replay.rs`: what a hop should take of one direction. -/
structure MonotonicCheck where
  last : UInt32

namespace MonotonicCheck

def new : MonotonicCheck := ⟨0⟩

def check (filter : MonotonicCheck) (seq : UInt32) : Bool × MonotonicCheck :=
  if seq ≤ filter.last then (false, filter) else (true, ⟨seq⟩)

def passed {β : Type} (seq : β → UInt32) (filter : MonotonicCheck) : List β → List β
  | [] => []
  | b :: l =>
    let (accepted, filter) := filter.check (seq b)
    if accepted then b :: passed seq filter l else passed seq filter l

theorem passed_cons {β : Type} (seq : β → UInt32) (last : UInt32) (b : β) (l : List β) :
    passed seq ⟨last⟩ (b :: l) = if last < seq b then b :: passed seq ⟨seq b⟩ l else passed seq ⟨last⟩ l := by
  rw [passed, check]
  by_cases above : last < seq b
  · rw [if_pos above, if_neg (UInt32.not_le.mpr above)]
    rfl
  · rw [if_neg above, if_pos (UInt32.not_lt.mp above)]
    rfl

/-- The filter takes what lies above all it has taken. -/
theorem passed_eq_climb {β : Type} (seq : β → UInt32) (last : UInt32) (l : List β) :
    passed seq ⟨last⟩ l = climb (fun b => (seq b).toNat) last.toNat l := by
  induction l generalizing last with
  | nil => rfl
  | cons b l ih =>
    rw [passed_cons, climb, ih, ih]
    exact if_congr UInt32.lt_iff_toNat_lt rfl rfl

example : passed id new [7, 7, 8, 0] = [7, 8] := rfl

end MonotonicCheck
end Nbf.Crypto

namespace Nbf.Net

open Nbf.Library Nbf.Crypto

variable {C : Crates}

/-- A cell as it comes in, with what `lookup_route` would answer then. -/
structure Inbound where
  lookup : Lookup
  src : SocketAddr
  cell : Cell

def Inbound.Relays (a : Inbound) (cid : UInt32) : Prop := a.cell.cid = cid ∧ a.cell.cmd = .relay

instance Inbound.relaysDecidable (a : Inbound) (cid : UInt32) : Decidable (a.Relays cid) :=
  inferInstanceAs (Decidable (_ ∧ _))

def Inbound.msg? (a : Inbound) (cid : UInt32) : Option RelayMsg :=
  if a.Relays cid then
    match parseRelay a.cell.payload with
    | .ok msg => some msg
    | _ => none
  else none

def Inbound.Spares (a : Inbound) (cid : UInt32) : Prop := a.cell.cid = cid → a.cell.cmd ≠ .create ∧ a.cell.cmd ≠ .destroy

def Decision.delivers : Decision → Bool
  | .deliver _ _ => true
  | _ => false

namespace Node

def handle (node : Node C) (a : Inbound) : Node C × List Effect := node.handleCell a.lookup a.src a.cell

def handleAll (node : Node C) (cells : List Inbound) : Node C := cells.foldl (fun node a => (node.handle a).1) node

/-- The forward cell of this circuit the node accepts: it opens a layer of it, and goes on with what is inside. -/
def actsOn (node : Node C) (cid : UInt32) (a : Inbound) : Option RelayMsg :=
  if a.Relays cid then
    match node.relays a.src a.cell with
    | some (msg, _, decision) => if decision.accepted then some msg else none
    | none => none
  else none

def actedOn (node : Node C) (cid : UInt32) : List Inbound → List RelayMsg
  | [] => []
  | a :: rest => (node.actsOn cid a).toList ++ (node.handle a).1.actedOn cid rest

/-- The number of the reply on this circuit the node hands to a stream. -/
def handsOn (node : Node C) (cid : UInt32) (a : Inbound) : Option UInt32 :=
  if a.Relays cid then
    match node.relays a.src a.cell with
    | some (msg, _, decision) => if decision.delivers then some msg.seq else none
    | none => none
  else none

def handedOn (node : Node C) (cid : UInt32) : List Inbound → List UInt32
  | [] => []
  | a :: rest => (node.handsOn cid a).toList ++ (node.handle a).1.handedOn cid rest

end Node

namespace CircuitEntry

def next? : CircuitEntry → Option HopLink
  | .relay _ _ _ _ next _ => some next
  | _ => none

/-- From the previous hop, and the layer of the hop opens; whatever the number is. -/
def peels (C : Crates) (entry : CircuitEntry) (src : SocketAddr) (msg : RelayMsg) : Bool :=
  match entry with
  | .origin .. => false
  | .relay tag kFwd _ prev _ _ => src = prev.peer && (openOnion C kFwd tag msg.seq msg.onion).isOk
  | .terminal tag kFwd _ prev _ => src = prev.peer && (openOnion C kFwd tag msg.seq msg.onion).isOk

def authentic (C : Crates) (entry : CircuitEntry) (cid : UInt32) (a : Inbound) : Option RelayMsg :=
  (a.msg? cid).filter (entry.peels C a.src)

/-- All layers of the origin open, and the stream is registered. -/
def hands (C : Crates) (entry : CircuitEntry) (msg : RelayMsg) : Bool :=
  match entry with
  | .origin _ bwd tag _ streams => (openBwdAll C bwd tag msg.seq msg.onion).isOk && (streams.get msg.stream).isSome
  | _ => false

def genuine (C : Crates) (entry : CircuitEntry) (cid : UInt32) (a : Inbound) : Option UInt32 :=
  ((a.msg? cid).filter (entry.hands C)).map RelayMsg.seq

@[simp] theorem peels_withLastFwd (entry : CircuitEntry) (seq : UInt32) : (entry.withLastFwd seq).peels C = entry.peels C := by
  cases entry <;> rfl

@[simp] theorem authentic_withLastFwd (entry : CircuitEntry) (seq cid : UInt32) (a : Inbound) :
    (entry.withLastFwd seq).authentic C cid a = entry.authentic C cid a := by
  rw [authentic, peels_withLastFwd, authentic]

@[simp] theorem next?_withLastFwd (entry : CircuitEntry) (seq : UInt32) : (entry.withLastFwd seq).next? = entry.next? := by
  cases entry <;> rfl

theorem withLastFwd_self {entry : CircuitEntry} {lastFwd : UInt32} (has : entry.lastFwd? = some lastFwd) :
    entry.withLastFwd lastFwd = entry := by
  cases entry with
  | origin => cases has
  | relay | terminal =>
    cases has
    rfl

end CircuitEntry

/-! ## One cell -/

theorem accepted_relayDecide {entry : CircuitEntry} {lastFwd : UInt32} (has : entry.lastFwd? = some lastFwd) (src : SocketAddr)
    (msg : RelayMsg) : (relayDecide C entry src msg).accepted = (entry.peels C src msg && decide (lastFwd < msg.seq)) := by
  cases entry with
  | origin => cases has
  | relay tag kFwd kBwd prev next last =>
    cases has
    simp only [relayDecide, CircuitEntry.peels]
    by_cases behind : src = prev.peer
    · by_cases replay : msg.seq ≤ lastFwd
      · simp [behind, replay, Decision.accepted, UInt32.not_lt.mpr replay]
      · simp only [if_neg replay, behind, UInt32.not_le.mp replay, decide_true, Bool.true_and, Bool.and_true]
        cases openOnion C kFwd tag msg.seq msg.onion <;> rfl
    · rw [if_neg behind, decide_eq_false behind]
      split <;> rfl
  | terminal tag kFwd kBwd prev last =>
    cases has
    simp only [relayDecide, CircuitEntry.peels]
    by_cases behind : src = prev.peer
    · by_cases replay : msg.seq ≤ lastFwd
      · simp [replay, Decision.accepted, UInt32.not_lt.mpr replay]
      · simp only [behind, replay, ne_eq, not_true_eq_false, or_self, if_false, UInt32.not_le.mp replay, decide_true,
          Bool.true_and, Bool.and_true]
        cases openOnion C kFwd tag msg.seq msg.onion with
        | ok inner => cases msg.rcmd <;> rfl
        | error => rfl
        | panic => rfl
    · simp [behind, Decision.accepted]

theorem delivers_relayDecide {entry : CircuitEntry} (isOrigin : entry.lastFwd? = none) (src : SocketAddr) (msg : RelayMsg) :
    (relayDecide C entry src msg).delivers = entry.hands C msg := by
  cases entry with
  | relay => cases isOrigin
  | terminal => cases isOrigin
  | origin fwd bwd tag next streams =>
    simp only [relayDecide, CircuitEntry.hands]
    cases openBwdAll C bwd tag msg.seq msg.onion with
    | ok data => cases streams.get msg.stream <;> rfl
    | error => rfl
    | panic => rfl

/-- What a hop does not accept it drops, or it is a reply for the previous hop. -/
theorem effects_relayDecide {entry : CircuitEntry} (hop : entry.lastFwd?.isSome) {src : SocketAddr} {msg : RelayMsg}
    (passed : (relayDecide C entry src msg).accepted = false) : (relayDecide C entry src msg).effects = [] ∨
      ∃ back, (relayDecide C entry src msg).effects = [.sendCell entry.link.peer back] ∧ src ≠ entry.link.peer ∧
        entry.next?.map HopLink.peer = some src := by
  cases entry with
  | origin => cases hop
  | relay tag kFwd kBwd prev next last =>
    simp only [relayDecide] at passed ⊢
    by_cases behind : src = prev.peer
    · rw [if_pos behind] at passed ⊢
      split
      · exact .inl rfl
      next above =>
        rw [if_neg above] at passed
        split
        next opened =>
          rw [opened] at passed
          cases passed
        next => exact .inl rfl
    · rw [if_neg behind]
      by_cases ahead : src = next.peer
      · rw [if_pos ahead]
        exact .inr ⟨_, rfl, behind, congrArg some ahead.symm⟩
      · rw [if_neg ahead]
        exact .inl rfl
  | terminal tag kFwd kBwd prev last =>
    simp only [relayDecide] at passed ⊢
    split
    · exact .inl rfl
    next mine =>
      rw [if_neg mine] at passed
      split
      next opened =>
        rw [opened] at passed
        cases cmd : msg.rcmd <;> simp [cmd, Decision.accepted] at passed
      next => exact .inl rfl

theorem Inbound.msg?_of_relays {a : Inbound} {cid : UInt32} (relays : a.Relays cid) (node : Node C) {entry : CircuitEntry}
    (stored : node.circuits.get cid = some entry) :
    node.relays a.src a.cell = (a.msg? cid).map fun msg => (msg, entry, relayDecide C entry a.src msg) := by
  rw [Inbound.msg?, if_pos relays, Node.relays, relays.1, stored]
  cases parseRelay a.cell.payload <;> rfl

theorem Inbound.msg?_of_not_relays {a : Inbound} {cid : UInt32} (other : ¬ a.Relays cid) : a.msg? cid = none := if_neg other

namespace Node

variable {node : Node C} {cid : UInt32} {entry : CircuitEntry}

theorem actsOn_eq {lastFwd : UInt32} (stored : node.circuits.get cid = some entry) (has : entry.lastFwd? = some lastFwd) (a : Inbound) :
    node.actsOn cid a = (entry.authentic C cid a).filter fun msg => lastFwd < msg.seq := by
  rw [actsOn, CircuitEntry.authentic, Option.filter_filter]
  by_cases relays : a.Relays cid
  · rw [if_pos relays, Inbound.msg?_of_relays relays node stored]
    cases a.msg? cid with
    | none => rfl
    | some msg => simp only [Option.map_some, accepted_relayDecide has, Option.filter_some]
  · rw [if_neg relays, Inbound.msg?_of_not_relays relays, Option.filter_none]

theorem handsOn_eq (stored : node.circuits.get cid = some entry) (isOrigin : entry.lastFwd? = none) (a : Inbound) :
    node.handsOn cid a = entry.genuine C cid a := by
  rw [handsOn, CircuitEntry.genuine]
  by_cases relays : a.Relays cid
  · rw [if_pos relays, Inbound.msg?_of_relays relays node stored]
    cases a.msg? cid with
    | none => rfl
    | some msg =>
      simp only [Option.map_some, delivers_relayDecide isOrigin, Option.filter_some]
      cases entry.hands C msg <;> rfl
  · rw [if_neg relays, Inbound.msg?_of_not_relays relays]
    rfl

/-- Of all the cells that are no CREATE and no DESTROY of a circuit, only an accepted one changes its entry. -/
theorem get_handle (stored : node.circuits.get cid = some entry) {a : Inbound} (spares : a.Spares cid) :
    (node.handle a).1.circuits.get cid = some (((node.actsOn cid a).map fun msg => entry.withLastFwd msg.seq).getD entry) := by
  have after : (node.handle a).1.circuits = _ := node.handleCell_circuits a.lookup a.src a.cell
  rw [after, actsOn]
  cases cmd : a.cell.cmd with
  | relay =>
    by_cases own : a.cell.cid = cid
    · have relays : a.Relays cid := ⟨own, cmd⟩
      rw [if_pos relays, Inbound.msg?_of_relays relays node stored]
      cases a.msg? cid with
      | none => exact stored
      | some msg =>
        simp only [Option.map_some, own, Decision.get_commit stored, true_and]
        cases (relayDecide C entry a.src msg).accepted
        · exact stored
        · rfl
    · rw [if_neg fun relays : a.Relays cid => own relays.1]
      cases found : node.relays a.src a.cell with
      | none => exact stored
      | some handled =>
        obtain ⟨msg, other, decision⟩ := handled
        obtain ⟨-, here, -⟩ := Node.relays_some found
        simp only [Decision.get_commit here, Ne.symm own, false_and, if_false]
        exact stored
  | create =>
    have apart : cid ≠ a.cell.cid := fun same => (spares same.symm).1 cmd
    rw [if_neg fun relays : a.Relays cid => apart relays.1.symm]
    cases node.completes a.cell with
    | none => exact stored
    | some outcome => exact (Table.get_insert_of_ne _ _ apart).trans stored
  | destroy =>
    have apart : cid ≠ a.cell.cid := fun same => (spares same.symm).2 cmd
    rw [if_neg fun relays : a.Relays cid => apart relays.1.symm]
    exact (Table.get_remove_of_ne _ apart).trans stored
  | created | padding =>
    have other : ¬ a.Relays cid := fun relays => by
      have relay := relays.2
      rw [cmd] at relay
      cases relay
    rw [if_neg other]
    exact stored

theorem effects_handle (stored : node.circuits.get cid = some entry) {a : Inbound} (relays : a.Relays cid) :
    (node.handle a).2 = ((a.msg? cid).map fun msg => (relayDecide C entry a.src msg).effects).getD [] := by
  rw [Inbound.msg?, if_pos relays, handle, handleCell, relays.2, handleRelay, relays.1, stored]
  cases parseRelay a.cell.payload <;> rfl

/-! ## Any number of cells -/

theorem get_handleAll {lastFwd : UInt32}
    (stored : node.circuits.get cid = some entry) (has : entry.lastFwd? = some lastFwd) {cells : List Inbound}
    (spares : ∀ a ∈ cells, a.Spares cid) :
    ∃ seq, (node.handleAll cells).circuits.get cid = some (entry.withLastFwd seq) ∧
      (seq = lastFwd ∨ ∃ a ∈ cells, ∃ msg, entry.authentic C cid a = some msg ∧ msg.seq = seq) := by
  induction cells generalizing node entry lastFwd with
  | nil => exact ⟨lastFwd, stored.trans (congrArg some (CircuitEntry.withLastFwd_self has).symm), .inl rfl⟩
  | cons a rest ih =>
    obtain ⟨here, later⟩ := List.forall_mem_cons.mp spares
    have after := get_handle stored here
    rw [actsOn_eq stored has] at after
    cases acted : (entry.authentic C cid a).filter fun msg => lastFwd < msg.seq with
    | none =>
      rw [acted] at after
      obtain ⟨seq, kept, started | ⟨b, member, given⟩⟩ := ih after has later
      · exact ⟨seq, kept, .inl started⟩
      · exact ⟨seq, kept, .inr ⟨b, List.mem_cons_of_mem _ member, given⟩⟩
    | some msg =>
      rw [acted, Option.map_some, Option.getD_some] at after
      have peeled := (Option.filter_eq_some_iff.mp acted).1
      obtain ⟨seq, kept, origin⟩ := ih after (CircuitEntry.lastFwd?_withLastFwd has msg.seq) later
      rw [CircuitEntry.withLastFwd_withLastFwd] at kept
      refine ⟨seq, kept, .inr ?_⟩
      rcases origin with rfl | ⟨b, member, given⟩
      · exact ⟨a, List.mem_cons_self, msg, peeled, rfl⟩
      · rw [CircuitEntry.authentic_withLastFwd] at given
        exact ⟨b, List.mem_cons_of_mem _ member, given⟩

/-- A hop acts on what the filter passes of the cells it could peel. -/
theorem actedOn_eq {lastFwd : UInt32} (stored : node.circuits.get cid = some entry) (has : entry.lastFwd? = some lastFwd)
    {cells : List Inbound} (spares : ∀ a ∈ cells, a.Spares cid) :
    node.actedOn cid cells = MonotonicCheck.passed RelayMsg.seq ⟨lastFwd⟩ (cells.filterMap (entry.authentic C cid)) := by
  -- Induction over the cells; the entry is the filter's state.
  induction cells generalizing node entry lastFwd with
  | nil => rfl
  | cons a rest ih =>
    obtain ⟨here, later⟩ := List.forall_mem_cons.mp spares
    have after := get_handle stored here
    rw [actsOn_eq stored has] at after
    rw [actedOn, actsOn_eq stored has, List.filterMap_cons]
    cases authentic : entry.authentic C cid a with
    | none =>
      rw [authentic] at after
      exact ih after has later
    | some msg =>
      rw [authentic, Option.filter_some] at after
      rw [Option.filter_some, MonotonicCheck.passed_cons]
      by_cases above : lastFwd < msg.seq
      · rw [if_pos (decide_eq_true above), Option.map_some, Option.getD_some] at after
        have filtered := ih after (CircuitEntry.lastFwd?_withLastFwd has msg.seq) later
        simp only [CircuitEntry.authentic_withLastFwd] at filtered
        rw [if_pos (decide_eq_true above), if_pos above, filtered]
        rfl
      · have below : ¬ decide (lastFwd < msg.seq) = true := fun holds => above (of_decide_eq_true holds)
        rw [if_neg below] at after
        rw [if_neg below, if_neg above]
        exact ih after has later

theorem handedOn_eq (stored : node.circuits.get cid = some entry) (isOrigin : entry.lastFwd? = none) {cells : List Inbound}
    (spares : ∀ a ∈ cells, a.Spares cid) : node.handedOn cid cells = cells.filterMap (entry.genuine C cid) := by
  induction cells generalizing node with
  | nil => rfl
  | cons a rest ih =>
    obtain ⟨here, later⟩ := List.forall_mem_cons.mp spares
    have after : (node.handle a).1.circuits.get cid = some entry := by
      have same (seq : UInt32) : entry.withLastFwd seq = entry := by
        cases entry with
        | origin => rfl
        | relay => cases isOrigin
        | terminal => cases isOrigin
      rw [get_handle stored here]
      cases node.actsOn cid a with
      | none => rfl
      | some msg => exact congrArg some (same msg.seq)
    rw [handedOn, handsOn_eq stored isOrigin, ih after later, List.filterMap_cons]
    cases entry.genuine C cid a <;> rfl

/-- A hop over any sequence of cells without a CREATE or DESTROY of its circuit. The forward cells it acts on are those
that the filter of `replay.rs`, started from `last_fwd`, accepts of the well-formed cells from the previous hop whose
layer opens, and their numbers go up. Each of them sets `last_fwd`; every other cell leaves the entry as it is, and if it
is a RELAY cell of the circuit, nothing is sent for it but a reply that goes back. -/
theorem filters_forward {lastFwd : UInt32} (stored : node.circuits.get cid = some entry) (has : entry.lastFwd? = some lastFwd)
    (cells : List Inbound) (spares : ∀ a ∈ cells, a.Spares cid) :
    node.actedOn cid cells = MonotonicCheck.passed RelayMsg.seq ⟨lastFwd⟩ (cells.filterMap (entry.authentic C cid)) ∧
    (node.actedOn cid cells).Pairwise (fun earlier later => earlier.seq < later.seq) ∧
    ∀ before a after, cells = before ++ a :: after →
      (∀ msg, (node.handleAll before).actsOn cid a = some msg →
        ((node.handleAll before).handle a).1.circuits.get cid = some (entry.withLastFwd msg.seq)) ∧
      ((node.handleAll before).actsOn cid a = none →
        ((node.handleAll before).handle a).1.circuits.get cid = (node.handleAll before).circuits.get cid ∧
        (a.Relays cid → ((node.handleAll before).handle a).2 = [] ∨ ∃ back, ((node.handleAll before).handle a).2 =
          [.sendCell entry.link.peer back] ∧ a.src ≠ entry.link.peer ∧ entry.next?.map HopLink.peer = some a.src)) := by
  have acted := actedOn_eq stored has spares
  refine ⟨acted, ?_, ?_⟩
  · rw [acted, MonotonicCheck.passed_eq_climb]
    have ascends : Ascends (fun msg : RelayMsg => msg.seq.toNat) lastFwd.toNat _ :=
      ascends_climb lastFwd.toNat (cells.filterMap (entry.authentic C cid))
    exact ascends.2.imp fun less => UInt32.lt_iff_toNat_lt.mpr less
  · rintro before a after rfl
    obtain ⟨seq, here, -⟩ := get_handleAll stored has fun b member => spares b (List.mem_append_left _ member)
    have next := get_handle here (spares a (by simp))
    refine ⟨fun msg accepted => ?_, fun passed => ⟨?_, fun relays => ?_⟩⟩
    · rw [next, accepted, Option.map_some, Option.getD_some, CircuitEntry.withLastFwd_withLastFwd]
    · rw [next, passed, here]
      rfl
    · have hop := CircuitEntry.lastFwd?_withLastFwd has seq
      rw [effects_handle here relays]
      rw [actsOn, if_pos relays, Inbound.msg?_of_relays relays _ here] at passed
      cases parsed : a.msg? cid with
      | none => exact .inl rfl
      | some msg =>
        rw [parsed] at passed
        simp only [Option.map_some, ite_eq_right_iff, reduceCtorEq, imp_false, Bool.not_eq_true] at passed
        have outcome := effects_relayDecide (Option.isSome_of_eq_some hop) passed
        rwa [CircuitEntry.link_withLastFwd, CircuitEntry.next?_withLastFwd] at outcome

/-- The origin over any sequence of cells without a CREATE or DESTROY of its circuit: it hands no number to a stream
twice, exactly if no two of its replies that open for a stream come with the same number. -/
theorem handedOn_nodup_iff (stored : node.circuits.get cid = some entry) (isOrigin : entry.lastFwd? = none)
    (cells : List Inbound) (spares : ∀ a ∈ cells, a.Spares cid) : (node.handedOn cid cells).Nodup ↔
      cells.Pairwise fun a b => ∀ seq, entry.genuine C cid a = some seq → entry.genuine C cid b ≠ some seq := by
  rw [handedOn_eq stored isOrigin spares, List.Nodup, List.pairwise_filterMap]
  constructor
  · intro apart
    exact apart.imp fun differ seq one two => differ seq one seq two rfl
  · intro apart
    refine apart.imp fun differ seq one seq' two same => ?_
    rw [← same] at two
    exact differ seq one two

end Node

namespace Transparent

open Nbf.Crypto.Transparent

def relayInbound (src : SocketAddr) (msg : RelayMsg) : Inbound :=
  ⟨fun _ => .error .timeout, src, ⟨1, .relay, 0, relayPayload msg⟩⟩

theorem msg?_relayInbound (src : SocketAddr) (msg : RelayMsg) : (relayInbound src msg).msg? 1 = some msg := by
  rw [Inbound.msg?, if_pos ⟨rfl, rfl⟩, relayInbound, parseRelay_relayPayload]

theorem spares_relayInbound (src : SocketAddr) (msg : RelayMsg) : (relayInbound src msg).Spares 1 := by
  simp [Inbound.Spares, relayInbound]

def askMsg : RelayMsg := ⟨64, .echo, 1, sealOnion crates [echoCircuit.kFwd] (.zeros 16) 64 [104, 105]⟩
def forgedMsg : RelayMsg := ⟨0xFFFFFFFF, .echo, 1, []⟩
def replyMsg (seq : UInt32) : RelayMsg := ⟨seq, .echo, 1, replyOnion crates echoHandle.bwd (.zeros 16) seq [104, 105]⟩

/-- The forged cell is passed over, and the genuine one is taken once. -/
theorem echo_filters_forward : echoTerminal.actedOn 1 [relayInbound (localhost 9100) forgedMsg,
    relayInbound (localhost 9100) askMsg, relayInbound (localhost 9100) askMsg] = [askMsg] := by
  have spares : ∀ a ∈ [relayInbound (localhost 9100) forgedMsg, relayInbound (localhost 9100) askMsg,
      relayInbound (localhost 9100) askMsg], a.Spares 1 := by
    simp only [List.forall_mem_cons, spares_relayInbound, true_and]
    simp
  have stored : echoTerminal.circuits.get 1 = some (.terminal (.zeros 16) echoCircuit.kFwd echoCircuit.kBwd echoCircuit.prev 0) := rfl
  have forged : (CircuitEntry.terminal (.zeros 16) echoCircuit.kFwd echoCircuit.kBwd echoCircuit.prev 0).authentic crates 1
      (relayInbound (localhost 9100) forgedMsg) = none := by
    rw [CircuitEntry.authentic, msg?_relayInbound]
    rfl
  have genuine : (CircuitEntry.terminal (.zeros 16) echoCircuit.kFwd echoCircuit.kBwd echoCircuit.prev 0).authentic crates 1
      (relayInbound (localhost 9100) askMsg) = some askMsg := by
    have opened := openOnion_sealOnion lawful echoCircuit.kFwd [] (.zeros 16) 64 [104, 105]
    rw [CircuitEntry.authentic, msg?_relayInbound, Option.filter_some, CircuitEntry.peels, askMsg, opened]
    rfl
  rw [(Node.filters_forward stored rfl _ spares).1]
  simp only [List.filterMap_cons, forged, genuine, List.filterMap_nil, MonotonicCheck.passed_cons]
  rfl

def echoWaiting : Node crates := echoOrigin.registerStream 1 1 7

def waitingEntry : CircuitEntry := .origin echoHandle.fwd echoHandle.bwd (.zeros 16) ⟨1, localhost 9100⟩ (Table.empty.insert 1 7)

theorem echoWaiting_entry : echoWaiting.circuits.get 1 = some waitingEntry := rfl

theorem genuine_replyMsg (src : SocketAddr) (seq : UInt32) :
    waitingEntry.genuine crates 1 (relayInbound src (replyMsg seq)) = some seq := by
  have opened := openBwdAll_replyOnion lawful echoHandle.bwd (.zeros 16) seq [104, 105]
  rw [CircuitEntry.genuine, msg?_relayInbound, Option.filter_some, waitingEntry, CircuitEntry.hands, replyMsg, opened]
  rfl

theorem handedOn_replies (replies : List (SocketAddr × UInt32)) :
    echoWaiting.handedOn 1 (replies.map fun reply => relayInbound reply.1 (replyMsg reply.2)) = replies.map Prod.snd := by
  have spares : ∀ a ∈ replies.map fun reply => relayInbound reply.1 (replyMsg reply.2), a.Spares 1 := by
    rw [List.forall_mem_map]
    exact fun reply _ => spares_relayInbound reply.1 (replyMsg reply.2)
  rw [Node.handedOn_eq echoWaiting_entry rfl spares, List.filterMap_map]
  clear spares
  induction replies with
  | nil => rfl
  | cons reply rest ih => rw [List.filterMap_cons, Function.comp_apply, genuine_replyMsg, ih, List.map_cons]

def twoReplies : List Inbound := [relayInbound (localhost 9100) (replyMsg 128), relayInbound (localhost 9100) (replyMsg 64)]

theorem echo_handed_once : echoWaiting.handedOn 1 twoReplies = [128, 64] ∧ (echoWaiting.handedOn 1 twoReplies).Nodup :=
  ⟨handedOn_replies [(localhost 9100, 128), (localhost 9100, 64)],
    (Node.handedOn_nodup_iff echoWaiting_entry rfl twoReplies (by simp [twoReplies, spares_relayInbound])).mpr
      (by simp [twoReplies, genuine_replyMsg])⟩

def sameReply : List Inbound := [relayInbound (localhost 9100) (replyMsg 64), relayInbound (localhost 6666) (replyMsg 64)]

theorem echo_handed_twice : echoWaiting.handedOn 1 sameReply = [64, 64] ∧ ¬ (echoWaiting.handedOn 1 sameReply).Nodup := by
  have handed : echoWaiting.handedOn 1 sameReply = [64, 64] := handedOn_replies [(localhost 9100, 64), (localhost 6666, 64)]
  exact ⟨handed, by simp [handed]⟩

end Transparent
end Nbf.Net

import Nbf.Net.Activity
import Nbf.Net.Echo

/-! A circuit between two honest ends, with whatever hops between them.

A hop holds neither of the terminal's keys. It may hand the terminal and the
origin any payload, with the one restriction an ideal AEAD puts on it: what opens
under a key and a nonce has been sealed with them by one of the two ends.
-/

set_option autoImplicit false

namespace Nbf.Net

open Nbf.Library Nbf.Crypto

variable {C : Crates}

/-- What one RELAY cell asks the terminal for. -/
structure Ask where
  seq : UInt32
  rcmd : RCmd
  stream : UInt16
  msg : List UInt8
  deriving DecidableEq

/-- A circuit as its two ends hold it: `near` and `nearBwd` are the keys the origin shares with the hops before the
terminal, `prev` is the terminal's link. -/
structure Circuit where
  handle : CircuitHandle
  near : List (Octets 32)
  kFwd : Octets 32
  nearBwd : List (Octets 32)
  kBwd : Octets 32
  next : HopLink
  prev : HopLink
  fwd : handle.fwd = near ++ [kFwd]
  bwd : handle.bwd = nearBwd ++ [kBwd]

structure Ends (C : Crates) where
  origin : Node C
  terminal : Node C
  /-- What the origin has sent on the circuit. -/
  asked : List Ask
  /-- What the terminal has acted on. -/
  acted : List Ask
  /-- The replies the origin has accepted: seq, the stream they are handed to, and the data. -/
  answers : List (UInt32 × UInt16 × List UInt8)

inductive EndEvent where
  | send (stream : UInt16) (rcmd : RCmd) (msg : List UInt8)
  /-- This payload reaches the terminal from its previous hop. -/
  | arrive (payload : List UInt8)
  /-- This payload reaches the origin. -/
  | reply (src : SocketAddr) (payload : List UInt8)
  /-- Whatever the two nodes do besides. -/
  | elsewhere

namespace Node

/-- What the terminal enters `match rcmd` with: its entry's guard has let the cell pass and its layer opens. -/
def acts (node : Node C) (src : SocketAddr) (cell : Cell) : Option Ask :=
  match parseRelay cell.payload, node.circuits.get cell.cid with
  | .ok msg, some (.terminal tag kFwd _ prev lastFwd) =>
    if src ≠ prev.peer ∨ msg.seq ≤ lastFwd then none else
    match openOnion C kFwd tag msg.seq msg.onion with
    | .ok inner => some ⟨msg.seq, msg.rcmd, msg.stream, inner⟩
    | _ => none
  | _, _ => none

/-- The reply the origin accepts: all its layers open. -/
def accepts (node : Node C) (cell : Cell) : Option (UInt32 × UInt16 × List UInt8) :=
  match parseRelay cell.payload, node.circuits.get cell.cid with
  | .ok msg, some (.origin _ bwd tag _ _) =>
    match openBwdAll C bwd tag msg.seq msg.onion with
    | .ok data => some (msg.seq, msg.stream, data)
    | _ => none
  | _, _ => none

theorem get_handleRelay {node : Node C} {entry : CircuitEntry} (src : SocketAddr) (cell : Cell)
    (stored : node.circuits.get cell.cid = some entry) :
    (node.handleRelay src cell).1.circuits.get cell.cid = some entry ∨
      ∃ seq, (node.handleRelay src cell).1.circuits.get cell.cid = some (entry.withLastFwd seq) := by
  rw [handleRelay_circuits, relays, stored]
  cases parseRelay cell.payload with
  | panic => exact .inl stored
  | error => exact .inl stored
  | ok msg =>
    dsimp only
    rw [Decision.get_commit stored]
    split
    · exact .inr ⟨msg.seq, rfl⟩
    · exact .inl stored

/-- The terminal does what it acts on asks for, and nothing else. -/
theorem effects_of_acts {node : Node C} {src : SocketAddr} {cell : Cell} {tag : Octets 16} {kFwd kBwd : Octets 32}
    {prev : HopLink} {lastFwd : UInt32} (stored : node.circuits.get cell.cid = some (.terminal tag kFwd kBwd prev lastFwd)) :
    (node.handleRelay src cell).2 = match node.acts src cell with
      | some ⟨seq, .echo, stream, msg⟩ =>
        [.sendCell prev.peer ⟨prev.cid, .relay, 0, relayPayload ⟨seq, .echo, stream, sealBwd C kBwd tag seq msg⟩⟩]
      | _ => [] := by
  unfold handleRelay acts
  cases parseRelay cell.payload with
  | panic => rfl
  | error => rfl
  | ok msg =>
    simp only [stored, relayDecide]
    split
    · rfl
    cases openOnion C kFwd tag msg.seq msg.onion with
    | panic => rfl
    | error => rfl
    | ok inner =>
      obtain ⟨seq, rcmd, stream, onion⟩ := msg
      cases rcmd <;> rfl

theorem effects_of_accepts {node : Node C} {src : SocketAddr} {cell : Cell} {fwd bwd : List (Octets 32)} {tag : Octets 16}
    {next : HopLink} {streams : Table UInt16 StreamTx}
    (stored : node.circuits.get cell.cid = some (.origin fwd bwd tag next streams)) :
    (node.handleRelay src cell).2 = match node.accepts cell with
      | some (_, stream, data) => match streams.get stream with
        | some tx => [.deliver tx data]
        | none => []
      | none => [] := by
  unfold handleRelay accepts
  cases parseRelay cell.payload with
  | panic => rfl
  | error => rfl
  | ok msg =>
    simp only [stored, relayDecide]
    cases openBwdAll C bwd tag msg.seq msg.onion with
    | panic => rfl
    | error => rfl
    | ok data =>
      dsimp only
      cases streams.get msg.stream <;> rfl

end Node

namespace Circuit

variable (K : Circuit)

structure Linked (s : Ends C) : Prop where
  origin : ∃ streams, s.origin.circuits.get K.handle.cid =
    some (.origin K.handle.fwd K.handle.bwd K.handle.tag K.next streams)
  terminal : ∃ lastFwd, s.terminal.circuits.get K.prev.cid =
    some (.terminal K.handle.tag K.kFwd K.kBwd K.prev lastFwd)

def toTerminal (payload : List UInt8) : Cell := ⟨K.prev.cid, .relay, 0, payload⟩

def toOrigin (payload : List UInt8) : Cell := ⟨K.handle.cid, .relay, 0, payload⟩

inductive Step : Ends C → EndEvent → Ends C → Prop where
  | send {s : Ends C} {stream : UInt16} {rcmd : RCmd} {msg : List UInt8} {origin : Node C} {effects : List Effect} :
      s.origin.send K.handle stream rcmd msg = (origin, effects, .ok ()) →
      Step s (.send stream rcmd msg) { s with origin, asked := s.asked ++ [⟨s.origin.seqOrigin, rcmd, stream, msg⟩] }
  | arrive (s : Ends C) (payload : List UInt8) :
      Step s (.arrive payload) { s with
        terminal := (s.terminal.handleRelay K.prev.peer (K.toTerminal payload)).1
        acted := s.acted ++ (s.terminal.acts K.prev.peer (K.toTerminal payload)).toList }
  | reply (s : Ends C) (src : SocketAddr) (payload : List UInt8) :
      Step s (.reply src payload) { s with
        origin := (s.origin.handleRelay src (K.toOrigin payload)).1
        answers := s.answers ++ (s.origin.accepts (K.toOrigin payload)).toList }
  | elsewhere {s : Ends C} {origin terminal : Node C} : K.Linked { s with origin, terminal } →
      Step s .elsewhere { s with origin, terminal }

/-! ## The ideal AEAD -/

/-- If this opens under key and nonce, it has been sealed with them, and opens to what was sealed. -/
def OpensSealed (C : Crates) (key : Octets 32) (nonce : Octets 12) (sealed : List (Octets 12 × List UInt8))
    (ct : List UInt8) : Prop :=
  ∀ plain, aeadOpen C key nonce ct = .ok plain → (nonce, plain) ∈ sealed ∧ ct = aeadSeal C key nonce plain

/-- All that has been sealed with the terminal's forward key: the innermost layer of every cell the origin sent. -/
def sealedFwd (s : Ends C) : List (Octets 12 × List UInt8) :=
  s.asked.map fun ask => (relayNonce C K.handle.tag 0 ask.seq, ask.msg)

/-- All that has been sealed with the terminal's backward key: its replies. -/
def sealedBwd (s : Ends C) : List (Octets 12 × List UInt8) :=
  (s.acted.filter (·.rcmd = .echo)).map fun act => (relayNonce C K.handle.tag 1 act.seq, act.msg)

def Ideal (s : Ends C) (event : EndEvent) (_ : Ends C) : Prop :=
  match event with
  | .arrive payload => ∀ msg, parseRelay payload = .ok msg →
    OpensSealed C K.kFwd (relayNonce C K.handle.tag 0 msg.seq) (K.sealedFwd s) msg.onion
  | .reply _ payload => ∀ msg layer, parseRelay payload = .ok msg →
    openBwdAll C K.nearBwd K.handle.tag msg.seq msg.onion = .ok layer →
    OpensSealed C K.kBwd (relayNonce C K.handle.tag 1 msg.seq) (K.sealedBwd s) layer
  | _ => True

/-- The RELAY payload that reaches the terminal if every hop only peels its layer. -/
def atTerminal (C : Crates) (ask : Ask) : RelayMsg :=
  ⟨ask.seq, ask.rcmd, ask.stream, sealOnion C [K.kFwd] K.handle.tag ask.seq ask.msg⟩

/-- What the terminal acts on comes with the command and the stream the origin has put in, and the reply that the
origin accepts with the stream of the cell that has its seq. -/
def Untouched (s : Ends C) (event : EndEvent) (_ : Ends C) : Prop :=
  match event with
  | .arrive payload => (s.terminal.acts K.prev.peer (K.toTerminal payload)).isSome →
    ∃ ask ∈ s.asked, parseRelay payload = .ok (K.atTerminal C ask)
  | .reply _ payload => (s.origin.accepts (K.toOrigin payload)).isSome →
    ∃ ask ∈ s.asked, ∃ msg, parseRelay payload = .ok msg ∧ msg.seq = ask.seq ∧ msg.stream = ask.stream
  | _ => True

/-- The terminal has acted on what the origin asked for, and replies went to the stream that was asked for. -/
def AsAsked (s : Ends C) : Prop :=
  (∀ act ∈ s.acted, act ∈ s.asked) ∧ ∀ answer ∈ s.answers, ∃ ask ∈ s.asked, ask.seq = answer.1 ∧ ask.stream = answer.2.1

/-! ## Steps -/

variable {K} {s t : Ends C}

theorem Linked.step {event : EndEvent} (linked : K.Linked s) (step : K.Step s event t) : K.Linked t := by
  obtain ⟨streams, atOrigin⟩ := linked.origin
  obtain ⟨lastFwd, atTerminal⟩ := linked.terminal
  cases step with
  | @send stream rcmd msg origin effects sent =>
    refine ⟨⟨streams, ?_⟩, linked.terminal⟩
    simp only [Node.send, atOrigin, Prod.mk.injEq] at sent
    obtain ⟨rfl, -⟩ := sent
    exact atOrigin
  | arrive payload =>
    refine ⟨linked.origin, ?_⟩
    rcases Node.get_handleRelay K.prev.peer (K.toTerminal payload) atTerminal with same | ⟨seq, renewed⟩
    · exact ⟨lastFwd, same⟩
    · exact ⟨seq, renewed⟩
  | reply src payload =>
    refine ⟨⟨streams, ?_⟩, linked.terminal⟩
    rcases Node.get_handleRelay src (K.toOrigin payload) atOrigin with same | ⟨seq, renewed⟩
    · exact same
    · exact renewed
  | elsewhere linked' => exact ⟨linked'.origin, linked'.terminal⟩

theorem Linked.acts_eq (linked : K.Linked s) {payload : List UInt8} {act : Ask}
    (acted : s.terminal.acts K.prev.peer (K.toTerminal payload) = some act) :
    ∃ msg, parseRelay payload = .ok msg ∧ act.seq = msg.seq ∧ act.rcmd = msg.rcmd ∧ act.stream = msg.stream ∧
      aeadOpen C K.kFwd (relayNonce C K.handle.tag 0 msg.seq) msg.onion = .ok act.msg := by
  obtain ⟨lastFwd, stored⟩ := linked.terminal
  unfold Node.acts toTerminal at acted
  dsimp only at acted
  rw [stored] at acted
  split at acted
  next msg tag kFwd kBwd prev last parsed same =>
    cases same
    split at acted
    · cases acted
    · split at acted
      next inner opened =>
        cases acted
        exact ⟨msg, parsed, rfl, rfl, rfl, Checked.mapErr_eq_ok.mp opened⟩
      next => cases acted
  next => cases acted

theorem Linked.accepts_eq (linked : K.Linked s) {payload : List UInt8} {answer : UInt32 × UInt16 × List UInt8}
    (accepted : s.origin.accepts (K.toOrigin payload) = some answer) :
    ∃ msg, parseRelay payload = .ok msg ∧ answer.1 = msg.seq ∧ answer.2.1 = msg.stream ∧
      openBwdAll C (K.nearBwd ++ [K.kBwd]) K.handle.tag msg.seq msg.onion = .ok answer.2.2 := by
  obtain ⟨streams, stored⟩ := linked.origin
  unfold Node.accepts toOrigin at accepted
  dsimp only at accepted
  rw [stored] at accepted
  split at accepted
  next msg fwd bwd tag next streams' parsed same =>
    cases same
    split at accepted
    next data opened =>
      cases accepted
      rw [K.bwd] at opened
      exact ⟨msg, parsed, rfl, rfl, opened⟩
    next => cases accepted
  next => cases accepted

/-- The terminal acts on something the origin has asked for exactly if the cell comes as the origin has sent it. -/
theorem acts_asked_iff (laws : C.Lawful) (linked : K.Linked s) {payload : List UInt8} (ideal : K.Ideal s (.arrive payload) t)
    {act : Ask} (acted : s.terminal.acts K.prev.peer (K.toTerminal payload) = some act) :
    (∃ ask ∈ s.asked, parseRelay payload = .ok (K.atTerminal C ask)) ↔ act ∈ s.asked := by
  obtain ⟨msg, parsed, seq, rcmd, stream, opened⟩ := linked.acts_eq acted
  constructor
  · rintro ⟨ask, member, same⟩
    obtain rfl : msg = K.atTerminal C ask := Checked.ok.inj (parsed.symm.trans same)
    have layer : act.msg = ask.msg := Checked.ok.inj (opened.symm.trans (laws.open_seal ..))
    obtain rfl : act = ask := by
      cases act
      cases ask
      simp only [atTerminal] at seq rcmd stream layer
      simp [seq, rcmd, stream, layer]
    exact member
  · intro member
    obtain ⟨-, sealed⟩ := ideal msg parsed act.msg opened
    refine ⟨act, member, parsed.trans (congrArg _ ?_)⟩
    obtain ⟨seq', rcmd', stream', onion⟩ := msg
    cases act
    simp only at seq rcmd stream sealed
    subst seq rcmd stream sealed
    rfl

theorem asAsked_send (asAsked : AsAsked s) (origin : Node C) (ask : Ask) :
    AsAsked { s with origin, asked := s.asked ++ [ask] } := by
  refine ⟨fun act member => List.mem_append_left _ (asAsked.1 act member), fun answer member => ?_⟩
  obtain ⟨found, asked, same⟩ := asAsked.2 answer member
  exact ⟨found, List.mem_append_left _ asked, same⟩

theorem asAsked_step_iff (laws : C.Lawful) (linked : K.Linked s) (asAsked : AsAsked s) {event : EndEvent}
    (step : K.Step s event t) (ideal : K.Ideal s event t) : K.Untouched s event t ↔ AsAsked t := by
  cases step with
  | @send stream rcmd msg origin effects _ => exact iff_of_true trivial (asAsked_send asAsked origin _)
  | elsewhere _ => exact iff_of_true trivial asAsked
  | arrive payload =>
    unfold Untouched AsAsked
    dsimp only
    cases acted : s.terminal.acts K.prev.peer (K.toTerminal payload) with
    | none => simpa [AsAsked] using asAsked
    | some act =>
      rw [acts_asked_iff laws linked ideal acted]
      have old := asAsked.1
      have answered := asAsked.2
      simp only [Option.isSome_some, true_implies, Option.toList_some, List.mem_append, List.mem_singleton]
      exact ⟨fun asked => ⟨fun other member => member.elim (old other) (fun same => same ▸ asked), answered⟩,
        fun both => both.1 act (.inr rfl)⟩
  | reply src payload =>
    unfold Untouched AsAsked
    dsimp only
    cases accepted : s.origin.accepts (K.toOrigin payload) with
    | none => simpa [AsAsked] using asAsked
    | some answer =>
      obtain ⟨msg, parsed, seq, stream, -⟩ := linked.accepts_eq accepted
      have answered := asAsked.2
      simp only [Option.isSome_some, true_implies, Option.toList_some, List.mem_append, List.mem_singleton]
      constructor
      · rintro ⟨ask, member, msg', parsed', seq', stream'⟩
        obtain rfl : msg = msg' := Checked.ok.inj (parsed.symm.trans parsed')
        refine ⟨asAsked.1, fun other place => place.elim (answered other) ?_⟩
        rintro rfl
        exact ⟨ask, member, (seq.trans seq').symm, (stream.trans stream').symm⟩
      · rintro ⟨-, all⟩
        obtain ⟨ask, member, seq', stream'⟩ := all answer (.inr rfl)
        exact ⟨ask, member, msg, parsed, seq.symm.trans seq'.symm, stream.symm.trans stream'.symm⟩

/-- In every run of a circuit whose hops hand on whatever they like and whose AEAD is ideal: the terminal acts on
exactly what the origin asks for, and replies go to the stream that was asked for, as long as no hop changes the
command or the stream of a cell the terminal acts on, or the stream of a reply the origin accepts. -/
theorem acts_as_asked_iff (laws : C.Lawful) (origin terminal : Node C) (linked : K.Linked ⟨origin, terminal, [], [], []⟩)
    (events : List EndEvent) (s : Ends C) :
    Run (Such (Such K.Step K.Ideal) K.Untouched) ⟨origin, terminal, [], [], []⟩ events s ↔
      Run (Such (Such K.Step K.Ideal) fun _ _ s => AsAsked s) ⟨origin, terminal, [], [], []⟩ events s := by
  refine Run.such_iff (fun s => K.Linked s ∧ AsAsked s) (fun s event t inv step => ?_) (fun s event t inv step => ?_) ?_
  · obtain ⟨⟨step, ideal⟩, untouched⟩ := step
    exact ⟨inv.1.step step, (asAsked_step_iff laws inv.1 inv.2 step ideal).mp untouched⟩
  · exact asAsked_step_iff laws inv.1 inv.2 step.1 step.2
  · exact ⟨linked, by simp [AsAsked]⟩

/-! ## What the AEAD does protect -/

theorem openBwdAll_snoc (keys : List (Octets 32)) (key : Octets 32) (tag : Octets 16) (seq : UInt32) (onion : List UInt8) :
    openBwdAll C (keys ++ [key]) tag seq onion = openBwdAll C keys tag seq onion >>= openBwd C key tag seq := by
  induction keys generalizing onion with
  | nil =>
    rw [List.nil_append, openBwdAll, openBwdAll, Checked.ok_bind]
    cases openBwd C key tag seq onion <;> rfl
  | cons first keys ih =>
    rw [List.cons_append, openBwdAll, openBwdAll]
    cases openBwd C first tag seq onion with
    | panic => rfl
    | error => rfl
    | ok inner => exact ih inner

/-- Every message the terminal has acted on was sealed by the origin, and every reply the origin has accepted by the
terminal, under the nonce of the seq it came with. -/
def Genuine (K : Circuit) (s : Ends C) : Prop :=
  (∀ act ∈ s.acted, (relayNonce C K.handle.tag 0 act.seq, act.msg) ∈ K.sealedFwd s) ∧
    ∀ answer ∈ s.answers, (relayNonce C K.handle.tag 1 answer.1, answer.2.2) ∈ K.sealedBwd s

theorem sealedFwd_grows {ask : Ask} {sealed : Octets 12 × List UInt8} (origin : Node C) (before : sealed ∈ K.sealedFwd s) :
    sealed ∈ K.sealedFwd { s with origin, asked := s.asked ++ [ask] } := by
  rw [sealedFwd, List.map_append]
  exact List.mem_append_left _ before

theorem sealedBwd_grows {acts : List Ask} {sealed : Octets 12 × List UInt8} (terminal : Node C) (before : sealed ∈ K.sealedBwd s) :
    sealed ∈ K.sealedBwd { s with terminal, acted := s.acted ++ acts } := by
  rw [sealedBwd, List.filter_append, List.map_append]
  exact List.mem_append_left _ before

theorem Genuine.step {event : EndEvent} (genuine : K.Genuine s) (linked : K.Linked s) (step : K.Step s event t)
    (ideal : K.Ideal s event t) : K.Genuine t := by
  obtain ⟨acts, replies⟩ := genuine
  cases step with
  | @send stream rcmd msg origin effects _ => exact ⟨fun act member => sealedFwd_grows origin (acts act member), replies⟩
  | elsewhere _ => exact ⟨acts, replies⟩
  | arrive payload =>
    refine ⟨fun act member => ?_, fun answer member => sealedBwd_grows _ (replies answer member)⟩
    rcases List.mem_append.mp member with old | new
    · exact acts act old
    · obtain ⟨msg, parsed, seq, -, -, opened⟩ := linked.acts_eq (Option.mem_toList.mp new)
      rw [seq]
      exact (ideal msg parsed act.msg opened).1
  | reply src payload =>
    refine ⟨acts, fun answer member => ?_⟩
    rcases List.mem_append.mp member with old | new
    · exact replies answer old
    · obtain ⟨msg, parsed, seq, -, opened⟩ := linked.accepts_eq (Option.mem_toList.mp new)
      rw [openBwdAll_snoc] at opened
      obtain ⟨layer, outer, inner⟩ := Checked.bind_eq_ok.mp opened
      rw [seq]
      exact (ideal msg layer parsed outer answer.2.2 (Checked.mapErr_eq_ok.mp inner)).1

/-- The messages themselves are authentic, whatever the hops do. -/
theorem run_genuine {origin terminal : Node C} (linked : K.Linked ⟨origin, terminal, [], [], []⟩) {events : List EndEvent}
    (run : Run (Such K.Step K.Ideal) ⟨origin, terminal, [], [], []⟩ events s) : K.Genuine s := by
  have both := run.invariant (fun s => K.Linked s ∧ K.Genuine s)
    (fun _ _ _ inv step => ⟨inv.1.step step.1, inv.2.step inv.1 step.1 step.2⟩) ⟨linked, by simp [Genuine]⟩
  exact both.2

/-! ## A hop that changes the clear fields -/

theorem step_send {streams : Table UInt16 StreamTx}
    (stored : s.origin.circuits.get K.handle.cid = some (.origin K.handle.fwd K.handle.bwd K.handle.tag K.next streams))
    (stream : UInt16) (rcmd : RCmd) (msg : List UInt8) :
    Such K.Step K.Ideal s (.send stream rcmd msg) { s with
      origin := { s.origin with seqOrigin := s.origin.seqOrigin + 1 }
      asked := s.asked ++ [⟨s.origin.seqOrigin, rcmd, stream, msg⟩] } := by
  have sent : ∃ effects, s.origin.send K.handle stream rcmd msg =
      ({ s.origin with seqOrigin := s.origin.seqOrigin + 1 }, effects, .ok ()) := by
    simp only [Node.send, stored]
    exact ⟨_, rfl⟩
  obtain ⟨effects, sent⟩ := sent
  exact ⟨.send sent, trivial⟩

theorem step_changed (laws : C.Lawful) {lastFwd : UInt32} {ask : Ask}
    (stored : s.terminal.circuits.get K.prev.cid = some (.terminal K.handle.tag K.kFwd K.kBwd K.prev lastFwd))
    (asked : ask ∈ s.asked) (above : lastFwd < ask.seq) (rcmd : RCmd) (stream : UInt16) :
    ∃ terminal, Such K.Step K.Ideal s (.arrive (relayPayload (K.atTerminal C { ask with rcmd, stream })))
      { s with terminal, acted := s.acted ++ [{ ask with rcmd, stream }] } := by
  have acted : s.terminal.acts K.prev.peer (K.toTerminal (relayPayload (K.atTerminal C { ask with rcmd, stream }))) =
      some { ask with rcmd, stream } := by
    simp only [Node.acts, toTerminal, parseRelay_relayPayload, stored, atTerminal, if_neg (terminal_passes above),
      openOnion_sealOnion laws]
    rfl
  have step := Step.arrive (K := K) s (relayPayload (K.atTerminal C { ask with rcmd, stream }))
  rw [acted] at step
  refine ⟨_, step, fun msg parsed plain opened => ?_⟩
  rw [parseRelay_relayPayload] at parsed
  obtain rfl := Checked.ok.inj parsed
  obtain rfl : ask.msg = plain := Checked.ok.inj ((laws.open_seal ..).symm.trans opened)
  exact ⟨List.mem_map.mpr ⟨ask, asked, rfl⟩, rfl⟩

end Circuit

namespace Transparent

open Nbf.Crypto.Transparent

def echoCircuit : Circuit where
  handle := echoHandle
  near := [.replicate 32 1]
  kFwd := .replicate 32 3
  nearBwd := [.replicate 32 2]
  kBwd := .replicate 32 4
  next := ⟨1, localhost 9100⟩
  prev := ⟨1, localhost 9100⟩
  fwd := rfl
  bwd := rfl

def echoTerminal : Node crates :=
  { node 20 0 with circuits := Table.empty.insert 1 ((farHop 1).entry (.zeros 16) (localhost 9100) none) }

theorem echo_linked : echoCircuit.Linked ⟨echoOrigin, echoTerminal, [], [], []⟩ where
  origin := ⟨.empty, rfl⟩
  terminal := ⟨0, rfl⟩

def echoAsk : Ask := ⟨64, .echo, 1, [104, 105]⟩

theorem echo_changed (rcmd : RCmd) (stream : UInt16) : ∃ sent arrived payload,
    Such echoCircuit.Step echoCircuit.Ideal ⟨echoOrigin, echoTerminal, [], [], []⟩ (.send 1 .echo [104, 105]) sent ∧
    Such echoCircuit.Step echoCircuit.Ideal sent (.arrive payload) arrived ∧
    (sent.asked = [echoAsk] ∧ sent.acted = [] ∧ sent.answers = []) ∧
    arrived.asked = [echoAsk] ∧ arrived.acted = [{ echoAsk with rcmd, stream }] ∧ arrived.answers = [] := by
  let sent : Ends crates := ⟨{ echoOrigin with seqOrigin := 65 }, echoTerminal, [echoAsk], [], []⟩
  have send : Such echoCircuit.Step echoCircuit.Ideal ⟨echoOrigin, echoTerminal, [], [], []⟩ (.send 1 .echo [104, 105]) sent :=
    have entry : echoOrigin.circuits.get 1 = some (.origin _ _ _ _ .empty) := rfl
    Circuit.step_send entry 1 .echo [104, 105]
  obtain ⟨terminal, arrive⟩ := Circuit.step_changed (K := echoCircuit) (s := sent) lawful rfl
    (List.mem_singleton_self echoAsk) (by decide) rcmd stream
  exact ⟨_, _, _, send, arrive, ⟨rfl, rfl, rfl⟩, rfl, rfl, rfl⟩

/-- An echo that is left alone. -/
theorem echo_as_asked : ∃ events s, s.acted = [echoAsk] ∧
    Run (Such (Such echoCircuit.Step echoCircuit.Ideal) echoCircuit.Untouched) ⟨echoOrigin, echoTerminal, [], [], []⟩
      events s := by
  obtain ⟨sent, arrived, payload, send, arrive, ⟨asked, acted, answers⟩, asked', acted', answers'⟩ := echo_changed .echo 1
  refine ⟨_, arrived, acted', (Circuit.acts_as_asked_iff lawful echoOrigin echoTerminal echo_linked _ arrived).mpr
    (.snoc (.single ⟨send, ?_⟩) ⟨arrive, ?_⟩)⟩
  · simp [Circuit.AsAsked, acted, answers]
  · simp [Circuit.AsAsked, asked', acted', answers', echoAsk]

/-- The first hop turns the echo into data; the layer opens all the same. -/
theorem echo_made_data : ∃ events s, Run (Such echoCircuit.Step echoCircuit.Ideal) ⟨echoOrigin, echoTerminal, [], [], []⟩
    events s ∧ s.asked = [echoAsk] ∧ s.acted = [{ echoAsk with rcmd := .data }] ∧ ¬ Circuit.AsAsked s := by
  obtain ⟨sent, arrived, payload, send, arrive, -, asked, acted, answers⟩ := echo_changed .data 1
  refine ⟨_, arrived, .snoc (.single send) arrive, asked, acted, ?_⟩
  simp [Circuit.AsAsked, asked, acted, echoAsk]

end Transparent
end Nbf.Net

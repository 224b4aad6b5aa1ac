import Nbf.Library.InOrder
import Nbf.Net.Transport

/-! Cells one way between two links that have a session.

Each call of `send_cell` runs to its end before the next; the datagrams arrive in
the order they were sent in, and any of them may be lost on the way.
-/

set_option autoImplicit false

namespace Nbf.Net

open Nbf.Library Nbf.Crypto

variable {S : Snow}

namespace Link

/-! ## A whole call of `send_cell` -/

inductive Returns (i : Nat) : Link S → List (SocketAddr × List UInt8) → Link S → Prop where
  | done {l : Link S} {result : Checked NetError Unit} : l.tasks.get i = some (.done result) → Returns i l [] l
  | step {l l₁ l' : Link S} {eph : S.Ephemeral} {sent : Sent} {out : List (SocketAddr × List UInt8)} :
      l.step (.step i eph) = some (l₁, sent) → Returns i l₁ out l' → Returns i l (sent.cells ++ out) l'

def Sends (l : Link S) (i : Nat) (dst : SocketAddr) (cell : Cell) (out : List (SocketAddr × List UInt8)) (l' : Link S) : Prop :=
  ∃ l₁ sent, l.step (.sendCell i dst cell) = some (l₁, sent) ∧ Returns i l₁ out l'

theorem Returns.of_done {i : Nat} {l l' : Link S} {result : Checked NetError Unit} {out : List (SocketAddr × List UInt8)}
    (returns : Returns i l out l') (done : l.tasks.get i = some (.done result)) : out = [] ∧ l' = l := by
  cases returns with
  | done => exact ⟨rfl, rfl⟩
  | step step =>
    simp only [Link.step, done, Option.bind_some, stepTask] at step
    cases step

theorem Returns.step_of {i : Nat} {l l' : Link S} {task : SendTask} {out : List (SocketAddr × List UInt8)}
    (returns : Returns i l out l') (here : l.tasks.get i = some task) (running : ∀ result, task ≠ .done result) :
    ∃ eph l₁ sent out', l.stepTask i eph task = some (l₁, sent) ∧ Returns i l₁ out' l' ∧ out = sent.cells ++ out' := by
  cases returns with
  | done done => exact absurd (Option.some.inj (here.symm.trans done)) (running _)
  | step step rest =>
    simp only [Link.step, here, Option.bind_some] at step
    exact ⟨_, _, _, _, step, rest, rfl⟩

/-- With a session, a call sends its cell encrypted under it, or fails and sends nothing. -/
theorem Sends.cases {l l' : Link S} {i : Nat} {dst : SocketAddr} {cell : Cell} {out : List (SocketAddr × List UInt8)}
    {t : S.TransportState} (sends : l.Sends i dst cell out l') (has : l.sessions.get dst = some t) :
    ∃ result, out = [] ∧ l' = l.put i (.done result) ∨ ∃ buf data t', cell.encode = .ok buf ∧
      S.transportWrite t buf.bytes = .ok (data, t') ∧ out = [(dst, data)] ∧
      l' = { l with sessions := l.sessions.insert dst t' }.put i (.done result) := by
  obtain ⟨l₁, sent, call, returns⟩ := sends
  simp only [Link.step] at call
  split at call
  next =>
    cases call
    obtain ⟨_, _, _, _, checks, checked, rfl⟩ := returns.step_of (Table.get_insert_self ..) (fun _ other => by cases other)
    simp only [stepTask, put, has, Table.insert_insert] at checks
    cases checks
    obtain ⟨_, _, _, _, encrypts, encrypted, rfl⟩ := checked.step_of (Table.get_insert_self ..) (fun _ other => by cases other)
    simp only [stepTask, put, has, Table.insert_insert] at encrypts
    -- The call ends where the encoder or the session fails.
    cases encoded : cell.encode with
    | ok buf =>
      simp only [encoded] at encrypts
      cases wrote : S.transportWrite t buf.bytes with
      | ok written =>
        simp only [wrote] at encrypts
        cases encrypts
        obtain ⟨_, _, _, _, emits, emitted, rfl⟩ := encrypted.step_of (Table.get_insert_self ..) (fun _ other => by cases other)
        simp only [stepTask, put, Table.insert_insert] at emits
        cases emits
        obtain ⟨rfl, rfl⟩ := emitted.of_done (Table.get_insert_self ..)
        exact ⟨_, .inr ⟨buf, written.1, written.2, rfl, wrote, rfl, rfl⟩⟩
      | error reason =>
        simp only [wrote] at encrypts
        cases encrypts
        obtain ⟨rfl, rfl⟩ := encrypted.of_done (Table.get_insert_self ..)
        exact ⟨_, .inl ⟨rfl, rfl⟩⟩
    | error | panic =>
      simp only [encoded] at encrypts
      cases encrypts
      obtain ⟨rfl, rfl⟩ := encrypted.of_done (Table.get_insert_self ..)
      exact ⟨_, .inl ⟨rfl, rfl⟩⟩
  next => cases call

end Link

variable (S) in
/-- Encrypted cells on their way, with the cells they are, oldest first. -/
structure Channel where
  sender : Link S
  receiver : Link S
  flying : List (Cell × List UInt8)
  lost : Nat

variable (S) in
inductive ChannelEvent where
  | send (i : Nat) (cell : Cell)
  | arrive (eph : S.Ephemeral)
  | lose

namespace Channel

def start (sender receiver : Link S) : Channel S := { sender, receiver, flying := [], lost := 0 }

inductive Step (dst src : SocketAddr) : Channel S → ChannelEvent S → Channel S → Prop where
  | send {c : Channel S} {i : Nat} {cell : Cell} {out : List (SocketAddr × List UInt8)} {l : Link S} :
      c.sender.Sends i dst cell out l →
      Step dst src c (.send i cell) { c with sender := l, flying := c.flying ++ out.map fun sent => (cell, sent.2) }
  | arrive {c : Channel S} {eph : S.Ephemeral} {first : Cell × List UInt8} {rest : List (Cell × List UInt8)} {r : Link S}
      {sent : Sent} : c.flying = first :: rest → c.receiver.step (.receive src first.2 eph) = some (r, sent) →
      Step dst src c (.arrive eph) { c with receiver := r, flying := rest }
  | lose {c : Channel S} {first : Cell × List UInt8} {rest : List (Cell × List UInt8)} : c.flying = first :: rest →
      Step dst src c .lose { c with flying := rest, lost := c.lost + 1 }

def Yields (src : SocketAddr) (c : Channel S) (event : ChannelEvent S) (c' : Channel S) : Prop :=
  match event with
  | .arrive _ => ∀ first, c.flying.head? = some first → c'.receiver.tx = c.receiver.tx ++ [(src, first.1)]
  | _ => True

/-- It comes before any loss, and does not begin like a handshake fragment. -/
def Intact (c : Channel S) (event : ChannelEvent S) (_ : Channel S) : Prop :=
  match event with
  | .arrive _ => c.lost = 0 ∧ ∀ first, c.flying.head? = some first → first.2.head? ≠ some 0x7F
  | _ => True

/-- `first` is a cell that the sender's session has written as number `n`. -/
def Numbered (K : Counters S) (handshake : Handshake S) (initiator : Bool) (n : Nat) (first : Cell × List UInt8) :
    Prop :=
  ∃ buf, first.1.encode = .ok buf ∧ K.Written handshake initiator n buf.bytes first.2 ∧ first.2.length = cellLen + 16

/-- The sessions are of one handshake; the receiver's is behind by what is flying and what is lost. -/
structure Follows (K : Counters S) (dst src : SocketAddr) (handshake : Handshake S) (initiator : Bool)
    (c : Channel S) (t u : S.TransportState) : Prop where
  has : c.sender.sessions.get dst = some t
  has' : c.receiver.sessions.get src = some u
  sender : K.handshake t = handshake ∧ K.initiator t = initiator
  receiver : K.handshake u = handshake ∧ K.initiator u = !initiator
  order : InOrder (Numbered K handshake initiator) (K.received u) c.lost c.flying (K.sent t)

variable {K : Counters S} {dst src : SocketAddr} {handshake : Handshake S} {initiator : Bool} {c c' : Channel S}
  {t u : S.TransportState}

theorem Follows.receiver_moves (follows : Follows K dst src handshake initiator c t u) {r : Link S} {u' : S.TransportState}
    (has' : r.sessions.get src = some u') (same : K.handshake u' = K.handshake u ∧ K.initiator u' = K.initiator u)
    (received : K.received u' = K.received u) : Follows K dst src handshake initiator { c with receiver := r } t u' :=
  { follows with
    has := follows.has
    has' := has'
    receiver := ⟨same.1.trans follows.receiver.1, same.2.trans follows.receiver.2⟩
    order := received ▸ follows.order }

theorem Follows.sender_moves (follows : Follows K dst src handshake initiator c t u) {l : Link S} {t' : S.TransportState}
    (has : l.sessions.get dst = some t') (same : K.handshake t' = K.handshake t ∧ K.initiator t' = K.initiator t)
    (sent : K.sent t' = K.sent t) : Follows K dst src handshake initiator { c with sender := l } t' u :=
  { follows with
    has := has
    has' := follows.has'
    sender := ⟨same.1.trans follows.sender.1, same.2.trans follows.sender.2⟩
    order := sent ▸ follows.order }

theorem Follows.send (follows : Follows K dst src handshake initiator c t u) (laws : K.Lawful) {i : Nat} {cell : Cell}
    {out : List (SocketAddr × List UInt8)} {l : Link S} (sends : c.sender.Sends i dst cell out l) :
    ∃ t', Follows K dst src handshake initiator
      { c with sender := l, flying := c.flying ++ out.map fun sent => (cell, sent.2) } t' u ∧ K.received t' = K.received t := by
  obtain ⟨result, ⟨rfl, rfl⟩ | ⟨buf, data, t', encoded, wrote, rfl, rfl⟩⟩ := sends.cases follows.has
  · refine ⟨t, { follows with has := follows.has, order := ?_ }, rfl⟩
    rw [List.map_nil, List.append_nil]
    exact follows.order
  · obtain ⟨same, side, next, received, size⟩ := laws.write t _ data t' wrote
    have numbered : Numbered K handshake initiator (K.sent t) (cell, data) :=
      ⟨buf, encoded, ⟨t, t', follows.sender.1, follows.sender.2, rfl, wrote⟩, by rw [size, buf.size]⟩
    exact ⟨t', { follows with
      has := Table.get_insert_self ..
      sender := ⟨same.trans follows.sender.1, side.trans follows.sender.2⟩
      order := next ▸ follows.order.send numbered }, received⟩

theorem Follows.lose (follows : Follows K dst src handshake initiator c t u) {first : Cell × List UInt8}
    {rest : List (Cell × List UInt8)} (flying : c.flying = first :: rest) :
    Follows K dst src handshake initiator { c with flying := rest, lost := c.lost + 1 } t u := by
  have order := follows.order
  rw [flying] at order
  exact { follows with order := order.lose }

theorem Numbered.read {n : Nat} {first : Cell × List UInt8} (numbered : Numbered K handshake initiator n first) (laws : K.Lawful)
    {r : Link S} (has : r.sessions.get src = some u) (receiver : K.handshake u = handshake ∧ K.initiator u = !initiator)
    (expected : K.received u = n) (other : first.2.head? ≠ some 0x7F) (eph : S.Ephemeral) : ∃ buf u',
      first.1.encode = .ok buf ∧ S.transportRead u first.2 = .ok (buf.bytes, u') ∧
      r.receive src first.2 eph = r.receiveCell src first.2 ∧
      r.receiveCell src first.2 = { r with sessions := r.sessions.insert src u', tx := r.tx ++ [(src, first.1)] } ∧
      (K.handshake u' = handshake ∧ K.initiator u' = !initiator) ∧ K.received u' = n + 1 ∧ K.sent u' = K.sent u := by
  obtain ⟨buf, encoded, written, size⟩ := numbered
  rw [← receiver.1, ← expected] at written
  obtain ⟨u', read⟩ := laws.accepts u _ _ _ written receiver.2
  obtain ⟨same, side, sent, received⟩ := laws.read u _ _ u' read
  exact ⟨buf, u', encoded, read, (r.receive_ciphertext src eph size).2 other, Link.receiveCell_read has read encoded,
    ⟨same.trans receiver.1, side.trans receiver.2⟩, received.trans (congrArg (· + 1) expected), sent⟩

theorem Follows.arrive (follows : Follows K dst src handshake initiator c t u) (laws : K.Lawful) {first : Cell × List UInt8}
    {rest : List (Cell × List UInt8)} (flying : c.flying = first :: rest) (eph : S.Ephemeral) (none : c.lost = 0)
    (other : first.2.head? ≠ some 0x7F) :
    (c.receiver.receive src first.2 eph).tx = c.receiver.tx ++ [(src, first.1)] ∧
      c.receiver.receive src first.2 eph = c.receiver.receiveCell src first.2 ∧
      ∃ u', Follows K dst src handshake initiator { c with receiver := c.receiver.receive src first.2 eph, flying := rest } t u' ∧
        K.sent u' = K.sent u := by
  have order := follows.order
  rw [flying, none] at order
  obtain ⟨_, u', -, -, taken, after, receiver, received, sent⟩ := order.head.read laws follows.has' follows.receiver rfl other eph
  refine ⟨by rw [taken, after], taken, u', ?_, sent⟩
  rw [taken, after]
  refine { follows with
    has := follows.has
    has' := Table.get_insert_self ..
    receiver := receiver
    order := ?_ }
  rw [none]
  exact received ▸ order.read

theorem Follows.arrive_broken (follows : Follows K dst src handshake initiator c t u) (laws : K.Lawful) {first : Cell × List UInt8}
    {rest : List (Cell × List UInt8)} (flying : c.flying = first :: rest) (eph : S.Ephemeral)
    (broken : ¬ (c.lost = 0 ∧ first.2.head? ≠ some 0x7F)) : (c.receiver.receive src first.2 eph).tx = c.receiver.tx := by
  have order := follows.order
  rw [flying] at order
  obtain ⟨buf, encoded, written, size⟩ := order.head
  obtain ⟨kind, apart⟩ := c.receiver.receive_ciphertext src eph size
  rw [← follows.receiver.1] at written
  by_cases fragment : first.2.head? = some 0x7F
  · exact Link.receive_fragment_tx _ _ eph (kind.trans (decide_eq_true fragment))
  · -- The session expects a number that is lost.
    have unread (msg : List UInt8) (u' : S.TransportState) : S.transportRead u first.2 ≠ .ok (msg, u') := by
      intro read
      have expected := laws.expects u _ _ _ _ _ _ written follows.receiver.2 read
      exact broken ⟨by omega, fragment⟩
    rw [apart fragment, Link.receiveCell_unread follows.has' unread size]

theorem Follows.yields_iff_intact (follows : Follows K dst src handshake initiator c t u) (laws : K.Lawful) {event : ChannelEvent S}
    (step : Step dst src c event c') : Yields src c event c' ↔ Intact c event c' := by
  cases step with
  | send => exact Iff.rfl
  | lose => exact Iff.rfl
  | arrive flying took =>
    obtain rfl := Link.receive_of_step took
    simp only [Yields, Intact, flying, List.head?_cons, Option.some.injEq, forall_eq']
    constructor
    · intro handed
      by_contra broken
      rw [follows.arrive_broken laws flying _ broken] at handed
      exact absurd (congrArg List.length handed) (by simp)
    · intro intact
      exact (follows.arrive laws flying _ intact.1 intact.2).1

theorem Follows.step (follows : Follows K dst src handshake initiator c t u) (laws : K.Lawful) {event : ChannelEvent S}
    (step : Step dst src c event c') (intact : Intact c event c') : ∃ t' u', Follows K dst src handshake initiator c' t' u' := by
  cases step with
  | send sends =>
    obtain ⟨t', after, -⟩ := follows.send laws sends
    exact ⟨t', u, after⟩
  | lose flying => exact ⟨t, u, follows.lose flying⟩
  | arrive flying took =>
    obtain rfl := Link.receive_of_step took
    obtain ⟨-, -, u', after, -⟩ := follows.arrive laws flying _ intact.1 (intact.2 _ (by rw [flying, List.head?_cons]))
    exact ⟨t, u', after⟩

/-- Whatever is sent and whatever is lost: every datagram that arrives yields its cell exactly if none
arrives after a loss and none begins like a handshake fragment. -/
theorem yields_iff (laws : K.Lawful) (l r : Link S) (dst src : SocketAddr) (t u : S.TransportState)
    (has : l.sessions.get dst = some t) (has' : r.sessions.get src = some u) (matching : K.Matching t u)
    (events : List (ChannelEvent S)) (c : Channel S) :
    Run (Such (Step dst src) (Yields src)) (start l r) events c ↔ Run (Such (Step dst src) Intact) (start l r) events c := by
  refine Run.such_iff (fun c => ∃ t' u', Follows K dst src (K.handshake t) (K.initiator t) c t' u') ?_ ?_
    ⟨t, u, has, has', ⟨rfl, rfl⟩, ⟨matching.handshake, matching.initiator⟩, matching.counter ▸ .empty _ _⟩
  · intro c event c' ⟨_, _, follows⟩ ⟨step, yields⟩
    exact follows.step laws step ((follows.yields_iff_intact laws step).mp yields)
  · intro c event c' ⟨_, _, follows⟩ step
    exact follows.yields_iff_intact laws step

end Channel

namespace CountedNoise

def call (l : Link snow) (i : Nat) (dst : SocketAddr) (cell : Cell) : Option (List (SocketAddr × List UInt8) × Link snow) := do
  let (l, _) ← l.step (.sendCell i dst cell)
  let (l, first) ← l.step (.step i (0 : UInt8))
  let (l, second) ← l.step (.step i (0 : UInt8))
  let (l, third) ← l.step (.step i (0 : UInt8))
  let .done _ ← l.tasks.get i | none
  return (first.cells ++ (second.cells ++ (third.cells ++ [])), l)

theorem sends_of_call {l l' : Link snow} {i : Nat} {dst : SocketAddr} {cell : Cell} {out : List (SocketAddr × List UInt8)}
    (called : call l i dst cell = some (out, l')) : l.Sends i dst cell out l' := by
  obtain ⟨⟨l₁, sent⟩, start, called⟩ := Option.bind_eq_some_iff.mp called
  obtain ⟨⟨l₂, first⟩, step₁, called⟩ := Option.bind_eq_some_iff.mp called
  obtain ⟨⟨l₃, second⟩, step₂, called⟩ := Option.bind_eq_some_iff.mp called
  obtain ⟨⟨l₄, third⟩, step₃, called⟩ := Option.bind_eq_some_iff.mp called
  obtain ⟨task, here, outcome⟩ := Option.bind_eq_some_iff.mp called
  split at outcome
  next result =>
    cases outcome
    exact ⟨l₁, sent, start, .step step₁ (.step step₂ (.step step₃ (.done here)))⟩
  next => cases outcome

def ship (c : Channel snow) : ChannelEvent snow → Option (Channel snow)
  | .send i cell => do
    let (out, l) ← call c.sender i (peers.addr true) cell
    return { c with sender := l, flying := c.flying ++ out.map fun sent => (cell, sent.2) }
  | .arrive eph => do
    let first :: rest := c.flying | none
    let (r, _) ← c.receiver.step (.receive (peers.addr false) first.2 eph)
    return { c with receiver := r, flying := rest }
  | .lose => do
    let _ :: rest := c.flying | none
    return { c with flying := rest, lost := c.lost + 1 }

theorem step_of_ship {c c' : Channel snow} {event : ChannelEvent snow} (shipped : ship c event = some c') :
    Channel.Step (peers.addr true) (peers.addr false) c event c' := by
  cases event with
  | send i cell =>
    obtain ⟨⟨out, l⟩, called, same⟩ := Option.bind_eq_some_iff.mp shipped
    cases same
    exact .send (sends_of_call called)
  | arrive eph =>
    simp only [ship] at shipped
    split at shipped
    next first rest flying =>
      obtain ⟨⟨r, sent⟩, took, same⟩ := Option.bind_eq_some_iff.mp shipped
      cases same
      exact .arrive flying took
    next => cases shipped
  | lose =>
    simp only [ship] at shipped
    split at shipped
    next flying =>
      cases shipped
      exact .lose flying
    next => cases shipped

def channel (p : Pair snow) : Channel snow := .start (p.link false) (p.link true)

def shipIntact (c : Channel snow) : ChannelEvent snow → Option (Channel snow)
  | .arrive eph =>
    if c.lost = 0 ∧ ∀ first ∈ c.flying.head?, first.2.head? ≠ some 0x7F then ship c (.arrive eph) else none
  | event => ship c event

theorem step_of_shipIntact {c c' : Channel snow} {event : ChannelEvent snow} (shipped : shipIntact c event = some c') :
    Such (Channel.Step (peers.addr true) (peers.addr false)) Channel.Intact c event c' := by
  cases event with
  | arrive eph =>
    simp only [shipIntact] at shipped
    split at shipped
    next intact => exact ⟨step_of_ship shipped, intact⟩
    next => cases shipped
  | send | lose => exact ⟨step_of_ship shipped, trivial⟩

def parcels : List (ChannelEvent snow) :=
  [.send 1 (letter 5), .send 2 (letter 6), .arrive (24 : UInt8), .arrive (25 : UInt8)]

def lossy : List (ChannelEvent snow) := [.send 1 (letter 5), .send 2 (letter 6), .lose]

theorem parcels_yield : ∃ p c, Run (Pair.Step peers) (Pair.start snow peers) (meeting (letter 5)) p ∧
    Run (Such (Channel.Step (peers.addr true) (peers.addr false)) (Channel.Yields (peers.addr false))) (channel p) parcels c ∧
    c.receiver.tx = [(peers.addr false, letter 5), (peers.addr false, letter 6)] := by
  have computed : ((meeting (letter 5)).foldlM (Pair.step peers) (Pair.start snow peers)).bind (fun p =>
      (parcels.foldlM shipIntact (channel p)).map fun c =>
        (matching? p, c.receiver.tx)) = some (true, [(peers.addr false, letter 5), (peers.addr false, letter 6)]) := by
    decide +kernel
  obtain ⟨p, run, shown⟩ := met computed
  obtain ⟨c, done, seen⟩ := Option.map_eq_some_iff.mp shown
  obtain ⟨same, tx⟩ := Prod.mk.inj seen
  obtain ⟨t, u, has, has', matching⟩ := matching_some same
  refine ⟨p, c, run, ?_, tx⟩
  refine (Channel.yields_iff counters_lawful _ _ _ _ t u has has' matching _ c).mpr ?_
  exact (Run.of_foldlM done).mono fun _ _ _ => step_of_shipIntact

/-- The other arrives and is not read. -/
theorem lost_parcel_silences : ∃ p t u c c', Run (Pair.Step peers) (Pair.start snow peers) (meeting (letter 5)) p ∧
    (p.link false).sessions.get (peers.addr true) = some t ∧ (p.link true).sessions.get (peers.addr false) = some u ∧
    counters.Matching t u ∧
    Run (Channel.Step (peers.addr true) (peers.addr false)) (channel p) lossy c ∧
    Channel.Step (peers.addr true) (peers.addr false) c (.arrive (24 : UInt8)) c' ∧
    ¬ Channel.Yields (peers.addr false) c (.arrive (24 : UInt8)) c' := by
  have computed : ((meeting (letter 5)).foldlM (Pair.step peers) (Pair.start snow peers)).bind (fun p =>
      (lossy.foldlM ship (channel p)).bind fun c => (ship c (.arrive (24 : UInt8))).map fun c' =>
        (matching? p, c.flying.map Prod.fst, c'.receiver.tx)) = some (true, [letter 6], []) := by
    decide +kernel
  obtain ⟨p, run, shown⟩ := met computed
  obtain ⟨c, done, rest⟩ := Option.bind_eq_some_iff.mp shown
  obtain ⟨c', arrived, seen⟩ := Option.map_eq_some_iff.mp rest
  obtain ⟨same, seen⟩ := Prod.mk.inj seen
  obtain ⟨flying, tx⟩ := Prod.mk.inj seen
  obtain ⟨t, u, has, has', matching⟩ := matching_some same
  refine ⟨p, t, u, c, c', run, has, has', matching, (Run.of_foldlM done).mono fun _ _ _ => step_of_ship, step_of_ship arrived,
    fun yields => ?_⟩
  obtain ⟨first, here, -⟩ := List.map_eq_singleton_iff.mp flying
  have handed := yields first (by rw [here, List.head?_cons])
  rw [tx] at handed
  exact absurd handed.symm (List.append_ne_nil_of_right_ne_nil _ (List.cons_ne_nil _ _))

end CountedNoise
end Nbf.Net

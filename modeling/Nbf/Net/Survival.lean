import Nbf.Net.Channel
import Nbf.Net.Crossing

/-! Two links with matching sessions, and the handshake datagrams of the past.

Cells go both ways in the order they are sent in. Every handshake datagram that was
ever sent may arrive again, any number of times and at any time; what it is answered
with is one of them from then on.
-/

set_option autoImplicit false

namespace Nbf.Net

open Nbf.Library Nbf.Library.TwoMessage Nbf.Crypto

variable {S : Snow}

namespace Link

/-- The receive task finishes what it is at; `hs` is what it sends. -/
inductive Settles : Link S → List (SocketAddr × List UInt8) → Link S → Prop where
  | idle {l : Link S} : l.recv = .idle → Settles l [] l
  | handle {l l₁ l' : Link S} {sent : Sent} {hs : List (SocketAddr × List UInt8)} : l.step .handle = some (l₁, sent) →
      Settles l₁ hs l' → Settles l (sent.hs ++ hs) l'

def Passes (l : Link S) (src : SocketAddr) (datagram : List UInt8) (eph : S.Ephemeral) (hs : List (SocketAddr × List UInt8))
    (l' : Link S) : Prop :=
  ∃ l₁ sent, l.step (.receive src datagram eph) = some (l₁, sent) ∧ Settles l₁ hs l'

theorem Settles.of_idle {l l' : Link S} {hs : List (SocketAddr × List UInt8)} (settles : Settles l hs l') (idle : l.recv = .idle) :
    hs = [] ∧ l' = l := by
  cases settles with
  | idle => exact ⟨rfl, rfl⟩
  | handle step =>
    simp only [Link.step, stepRecv, idle] at step
    cases step

theorem Settles.tx {l l' : Link S} {hs : List (SocketAddr × List UInt8)} (settles : Settles l hs l') : l'.tx = l.tx := by
  induction settles with
  | idle => rfl
  | handle step _ ih =>
    rw [ih]
    simp only [Link.step, stepRecv] at step
    repeat' split at step
    all_goals
      cases step
      try rfl

theorem Settles.of_reply {l l' : Link S} {hs : List (SocketAddr × List UInt8)} (settles : Settles l hs l') {src : SocketAddr}
    {st : S.HandshakeState} {msg : List UInt8} (reply : l.recv = .reply src st msg) {t : S.TransportState}
    (into : S.intoTransportMode st = .ok t) : l'.sessions.get src = some t := by
  have busy {l l' : Link S} {hs : List (SocketAddr × List UInt8)} (settles : Settles l hs l') (busy : l.recv ≠ .idle) :
      ∃ l₁ sent hs', l.stepRecv = some (l₁, sent) ∧ Settles l₁ hs' l' := by
    cases settles with
    | idle idle => exact absurd idle busy
    | handle step rest => exact ⟨_, _, _, step, rest⟩
  obtain ⟨l₁, _, _, replies, settles⟩ := busy settles (by rw [reply]; exact fun other => by cases other)
  simp only [stepRecv, reply] at replies
  cases replies
  obtain ⟨l₂, _, _, learns, settled⟩ := busy settles (fun other => by cases other)
  have stores : l₂.recv = .store src st := by
    simp only [stepRecv] at learns
    split at learns
    all_goals
      cases learns
      rfl
  obtain ⟨l₃, _, _, takes, last⟩ := busy settled (by rw [stores]; exact fun other => by cases other)
  simp only [stepRecv, stores, into] at takes
  cases takes
  rw [(last.of_idle rfl).2]
  exact Table.get_insert_self ..

end Link

variable (S) in
structure Bond where
  link : Bool → Link S
  /-- The encrypted cells that `x` has sent and that have not arrived, with the cells they are, oldest first. -/
  flying : Bool → List (Cell × List UInt8)
  /-- The handshake datagrams that have been sent, by destination. -/
  past : List (Bool × List UInt8)
  drawn : List S.Ephemeral

variable (S) in
inductive BondEvent where
  | send (x : Bool) (i : Nat) (cell : Cell)
  | arrive (x : Bool) (eph : S.Ephemeral)
  | replay (x : Bool) (datagram : List UInt8) (eph : S.Ephemeral)

def Pair.sentBy (peers : Peers) (p : Pair S) : PairEvent S → List (Bool × List UInt8)
  | .act x event =>
    match (p.link x).step event with
    | some (_, sent) => outgoing peers x sent
    | none => []
  | _ => []

namespace Bond

def start (p : Pair S) (past : List (Bool × List UInt8)) : Bond S :=
  { link := p.link, flying := fun _ => [], past, drawn := p.drawn }

def after (peers : Peers) (b : Bond S) (x : Bool) (eph : S.Ephemeral) (hs : List (SocketAddr × List UInt8)) (l : Link S) : Bond S :=
  { b with link := Function.update b.link x l, past := b.past ++ Pair.outgoing peers x { hs }, drawn := eph :: b.drawn }

inductive Step (peers : Peers) : Bond S → BondEvent S → Bond S → Prop where
  | send {b : Bond S} {x : Bool} {i : Nat} {cell : Cell} {out : List (SocketAddr × List UInt8)} {l : Link S} :
      (b.link x).Sends i (peers.addr !x) cell out l →
      Step peers b (.send x i cell)
        { b with link := Function.update b.link x l,
                 flying := Function.update b.flying x (b.flying x ++ out.map fun sent => (cell, sent.2)) }
  | arrive {b : Bond S} {x : Bool} {eph : S.Ephemeral} {first : Cell × List UInt8} {rest : List (Cell × List UInt8)}
      {hs : List (SocketAddr × List UInt8)} {l : Link S} : b.flying (!x) = first :: rest → eph ∉ b.drawn →
      (b.link x).Passes (peers.addr !x) first.2 eph hs l →
      Step peers b (.arrive x eph) { b.after peers x eph hs l with flying := Function.update b.flying (!x) rest }
  | replay {b : Bond S} {x : Bool} {datagram : List UInt8} {eph : S.Ephemeral} {hs : List (SocketAddr × List UInt8)}
      {l : Link S} : (x, datagram) ∈ b.past → eph ∉ b.drawn → (b.link x).Passes (peers.addr !x) datagram eph hs l →
      Step peers b (.replay x datagram eph) (b.after peers x eph hs l)

/-- Both hold sessions of one handshake afterwards, and a cell that arrives is handed on. -/
structure Upholds (peers : Peers) (b : Bond S) (event : BondEvent S) (b' : Bond S) : Prop where
  agree : ∃ t t', (b'.link false).sessions.get (peers.addr true) = some t ∧
    (b'.link true).sessions.get (peers.addr false) = some t' ∧ S.origin t = S.origin t'
  delivered : match event with
    | .arrive x _ => ∀ first, (b.flying !x).head? = some first → (b'.link x).tx = (b.link x).tx ++ [(peers.addr !x, first.1)]
    | _ => True

/-- The datagram that arrives again is no first message, and a cell does not begin like a handshake fragment. -/
def Harmless (peers : Peers) (b : Bond S) (event : BondEvent S) (_ : Bond S) : Prop :=
  match event with
  | .send .. => True
  | .arrive x _ => ∀ first, (b.flying !x).head? = some first → first.2.head? ≠ some 0x7F
  | .replay x datagram eph => ∀ msg, (b.link x).message? (peers.addr !x) datagram = some msg →
      ∀ answer, S.respond (b.link x).localStatic msg eph ≠ .ok answer

def channel (b : Bond S) (x : Bool) : Channel S :=
  { sender := b.link x, receiver := b.link !x, flying := b.flying x, lost := 0 }

/-- The sessions are those of the handshake, which nobody waits for an answer of. -/
structure Holding (K : Counters S) (peers : Peers) (s : Exchange S.Ephemeral) (handshake : Handshake S)
    (side : Bool → Bool) (b : Bond S) : Prop where
  party : ∀ x, Pair.Party peers s x (b.link x)
  idle : ∀ x, (b.link x).recv = .idle
  past : ∀ x datagram, (x, datagram) ∈ b.past → Pair.Carried peers s x datagram
  drawn : s.drawn ⊆ b.drawn
  unanswered : ∀ x, s.Unanswered x
  opened : handshake.2.2 ∈ s.drawn
  sides : ∀ x, side (!x) = !side x
  follows : ∃ t : Bool → S.TransportState, ∀ x,
    (b.channel x).Follows K (peers.addr !x) (peers.addr x) handshake (side x) (t x) (t !x)

end Bond

/-! ## What the links do with a message of the past -/

namespace Pair

variable {peers : Peers} {s : Exchange S.Ephemeral} {x : Bool} {l : Link S}

def dropped (peers : Peers) (x : Bool) (l : Link S) : Link S :=
  { l with hsBuf := l.hsBuf.remove (peers.addr !x), hsInflight := l.hsInflight.remove (peers.addr !x) }

theorem Second.unreadable (laws : S.Lawful) {msg : List UInt8} (second : Second peers s x msg) (key : Octets 32) (eph : S.Ephemeral)
    (answer : List UInt8 × S.HandshakeState) : S.respond key msg eph ≠ .ok answer := by
  obtain ⟨h, -, -, first, _, st, -, made⟩ := second
  intro read
  exact laws.second_unanswered _ _ _ _ _ _ _ _ made read

/-- A second message is ignored by a link that waits for no answer given so far. -/
theorem Party.receive_second (party : Party peers s x l) (laws : S.Lawful) {msg : List UInt8} (second : Second peers s x msg)
    (unanswered : s.Unanswered x) (short : msg.length ≤ 1024) (eph : S.Ephemeral) :
    l.receive (peers.addr !x) (hsSingle msg) eph = dropped peers x l := by
  obtain ⟨h, member, rfl, first, _, _, made, answer⟩ := second
  have judged : ({ l with hsBuf := l.hsBuf.remove (peers.addr !h.initiator) } : Link S).judge (peers.addr !h.initiator) msg eph =
    l.judge (peers.addr !h.initiator) msg eph := rfl
  rw [(Link.receive_hsSingle party.buffer short eph).2]
  rcases party.judge_second laws made answer eph with verdict | ⟨attempt, t, -, attempted, -⟩
  · simp only [Link.handleHs, judged, verdict]
    rfl
  · exact absurd rfl (unanswered _ attempted h member)

/-- A first message is answered, whatever session there is. -/
theorem Party.receive_first (party : Party peers s x l) (laws : S.Lawful) {msg : List UInt8} (first : First peers s x msg)
    (short : msg.length ≤ 1024) (eph : S.Ephemeral) : ∃ out st t, S.respond l.localStatic msg eph = .ok (out, st) ∧
      l.receive (peers.addr !x) (hsSingle msg) eph = { dropped peers x l with recv := .reply (peers.addr !x) st out } ∧
      S.intoTransportMode st = .ok t ∧ (S.origin t).2 = eph := by
  obtain ⟨eph', -, st, made⟩ := first
  obtain ⟨out, st', t, verdict, answer, -, into, origin⟩ := party.judge_first laws made eph
  have judged : ({ l with hsBuf := l.hsBuf.remove (peers.addr !x) } : Link S).judge (peers.addr !x) msg eph =
    l.judge (peers.addr !x) msg eph := rfl
  refine ⟨out, st', t, party.own ▸ answer, ?_, into, by rw [origin]⟩
  rw [(Link.receive_hsSingle party.buffer short eph).2]
  simp only [Link.handleHs, judged, verdict]
  rfl

end Pair

namespace Bond

variable {K : Counters S} {peers : Peers} {s : Exchange S.Ephemeral} {handshake : Handshake S} {side : Bool → Bool}
  {b b' : Bond S} {x : Bool} {l : Link S}

theorem channel_self (moved : b'.link = Function.update b.link x l) :
    b'.channel x = { b.channel x with sender := l, flying := b'.flying x } := by
  simp [channel, moved]

theorem channel_other (moved : b'.link = Function.update b.link x l) :
    b'.channel (!x) = { b.channel (!x) with receiver := l, flying := b'.flying !x } := by
  simp [channel, moved]

theorem past_quiet {entry : Bool × List UInt8} (member : entry ∈ b.past ++ Pair.outgoing peers x {}) : entry ∈ b.past := by
  rwa [Pair.outgoing, List.filterMap_nil, List.append_nil] at member

theorem Holding.moves (holding : Holding K peers s handshake side b) (moved : b'.link = Function.update b.link x l)
    (party : Pair.Party peers s x l) (idle : l.recv = .idle)
    (past : ∀ y datagram, (y, datagram) ∈ b'.past → Pair.Carried peers s y datagram) (drawn : b.drawn ⊆ b'.drawn)
    (t u : S.TransportState) (out : (b'.channel x).Follows K (peers.addr !x) (peers.addr x) handshake (side x) t u)
    (back : (b'.channel !x).Follows K (peers.addr x) (peers.addr !x) handshake (side !x) u t) :
    Holding K peers s handshake side b' where
  party y := by
    rw [moved]
    by_cases same : y = x
    · subst same
      rw [Function.update_self]
      exact party
    · rw [Function.update_of_ne same]
      exact holding.party y
  idle y := by
    rw [moved]
    by_cases same : y = x
    · subst same
      rw [Function.update_self]
      exact idle
    · rw [Function.update_of_ne same]
      exact holding.idle y
  past := past
  drawn := fun e member => drawn (holding.drawn member)
  unanswered := holding.unanswered
  opened := holding.opened
  sides := holding.sides
  follows := by
    refine ⟨fun y => if y = x then t else u, fun y => ?_⟩
    by_cases same : y = x
    · subst same
      simpa using out
    · obtain rfl : y = !x := Bool.eq_not.mpr same
      simpa using back

theorem Holding.views (holding : Holding K peers s handshake side b) (x : Bool) : ∃ t u,
    (b.channel x).Follows K (peers.addr !x) (peers.addr x) handshake (side x) t u ∧
      (b.channel !x).Follows K (peers.addr x) (peers.addr !x) handshake (side !x) u t := by
  obtain ⟨t, follows⟩ := holding.follows
  have back := follows (!x)
  rw [Bool.not_not] at back
  exact ⟨t x, t !x, follows x, back⟩

theorem Holding.send (holding : Holding K peers s handshake side b) (laws : S.Lawful) (counts : K.Lawful) {i : Nat} {cell : Cell}
    {out : List (SocketAddr × List UInt8)} (sends : (b.link x).Sends i (peers.addr !x) cell out l) :
    Holding K peers s handshake side
      { b with link := Function.update b.link x l,
               flying := Function.update b.flying x (b.flying x ++ out.map fun sent => (cell, sent.2)) } := by
  obtain ⟨t, u, there, back⟩ := holding.views x
  obtain ⟨t', after, received⟩ := there.send counts sends
  have moved := back.receiver_moves after.has
    ⟨after.sender.1.trans there.sender.1.symm, after.sender.2.trans there.sender.2.symm⟩ received
  have party : Pair.Party peers s x l ∧ l.recv = .idle := by
    have before := holding.party x
    obtain ⟨result, ⟨-, rfl⟩ | ⟨buf, data, t'', -, wrote, -, rfl⟩⟩ := sends.cases there.has
    · exact ⟨before.put i fun _ _ other => (by cases other), holding.idle x⟩
    · exact ⟨(before.reuse there.has (laws.origin_write _ _ _ _ wrote)).put i fun _ _ other => (by cases other), holding.idle x⟩
  refine holding.moves rfl party.1 party.2 holding.past (List.Subset.refl _) t' u ?_ ?_
  · rw [channel_self rfl]
    simpa [channel] using after
  · rw [channel_other rfl]
    simpa [channel] using moved

theorem Holding.arrive (holding : Holding K peers s handshake side b) (laws : S.Lawful) (counts : K.Lawful)
    {first : Cell × List UInt8} {rest : List (Cell × List UInt8)} (flying : b.flying (!x) = first :: rest) {eph : S.Ephemeral}
    {hs : List (SocketAddr × List UInt8)} (passes : (b.link x).Passes (peers.addr !x) first.2 eph hs l)
    (other : first.2.head? ≠ some 0x7F) : l.tx = (b.link x).tx ++ [(peers.addr !x, first.1)] ∧
      Holding K peers s handshake side { b.after peers x eph hs l with flying := Function.update b.flying (!x) rest } := by
  obtain ⟨t, u, there, back⟩ := holding.views x
  obtain ⟨l₁, sent, took, settles⟩ := passes
  obtain rfl := Link.receive_of_step took
  have receiver : (b.channel !x).receiver = b.link x := congrArg b.link (Bool.not_not x)
  obtain ⟨tx, taken, t', reached, counted⟩ := back.arrive counts flying eph rfl other
  rw [receiver] at tx taken reached
  have party := (holding.party x).receiveCell laws (peers.addr !x) first.2
  have idle : ((b.link x).receiveCell (peers.addr !x) first.2).recv = .idle := by
    obtain ⟨tx, same | ⟨_, _, _, -, -, same⟩⟩ := (b.link x).receiveCell_cases (peers.addr !x) first.2
    · rw [same]
      exact holding.idle x
    · rw [same]
      exact holding.idle x
  rw [← taken] at party idle
  obtain ⟨rfl, rfl⟩ := settles.of_idle idle
  have moved := there.sender_moves reached.has'
    ⟨reached.receiver.1.trans back.receiver.1.symm, reached.receiver.2.trans back.receiver.2.symm⟩ counted
  refine ⟨tx, holding.moves rfl party idle (fun _ _ member => holding.past _ _ (past_quiet member))
    (List.subset_cons_self _ _) t' u ?_ ?_⟩
  · rw [channel_self rfl]
    simpa [channel] using moved
  · rw [channel_other rfl]
    simpa [channel] using reached

theorem Holding.replay_second (holding : Holding K peers s handshake side b) (laws : S.Lawful) {msg : List UInt8}
    (second : Pair.Second peers s x msg) (short : msg.length ≤ 1024) {eph : S.Ephemeral} {hs : List (SocketAddr × List UInt8)}
    (passes : (b.link x).Passes (peers.addr !x) (hsSingle msg) eph hs l) :
    Holding K peers s handshake side (b.after peers x eph hs l) := by
  obtain ⟨t, u, there, back⟩ := holding.views x
  obtain ⟨l₁, sent, took, settles⟩ := passes
  obtain rfl := Link.receive_of_step took
  have same := (holding.party x).receive_second laws second (holding.unanswered x) short eph
  rw [same] at settles
  obtain ⟨rfl, rfl⟩ := settles.of_idle (holding.idle x)
  refine holding.moves rfl (holding.party x).drop (holding.idle x)
    (fun _ _ member => holding.past _ _ (past_quiet member)) (List.subset_cons_self _ _) t u ?_ ?_
  · rw [channel_self rfl]
    exact there.sender_moves there.has ⟨rfl, rfl⟩ rfl
  · rw [channel_other rfl]
    exact back.receiver_moves there.has ⟨rfl, rfl⟩ rfl

/-- A first message takes the session of its responder away from that of the other. -/
theorem Holding.replay_first (holding : Holding K peers s handshake side b) (laws : S.Lawful) {msg : List UInt8}
    (first : Pair.First peers s x msg) (short : msg.length ≤ 1024) {eph : S.Ephemeral} (fresh : eph ∉ b.drawn)
    {hs : List (SocketAddr × List UInt8)} (passes : (b.link x).Passes (peers.addr !x) (hsSingle msg) eph hs l)
    {t u : S.TransportState} (has : l.sessions.get (peers.addr !x) = some t)
    (has' : (b.link !x).sessions.get (peers.addr x) = some u) : S.origin t ≠ S.origin u := by
  obtain ⟨_, _, _, back⟩ := holding.views x
  obtain ⟨l₁, sent, took, settles⟩ := passes
  obtain rfl := Link.receive_of_step took
  obtain ⟨out, st, t', -, received, into, second⟩ := (holding.party x).receive_first laws first short eph
  rw [received] at settles
  have now := settles.of_reply rfl into
  obtain rfl := Option.some.inj (has.symm.trans now)
  obtain rfl := Option.some.inj (has'.symm.trans back.has)
  intro same
  have opened : (S.origin u).2 = handshake.2.2 := congrArg (·.2.2) back.sender.1
  rw [same, opened] at second
  exact fresh (holding.drawn (second ▸ holding.opened))

theorem Holding.agree (holding : Holding K peers s handshake side b) : ∃ t t',
    (b.link false).sessions.get (peers.addr true) = some t ∧ (b.link true).sessions.get (peers.addr false) = some t' ∧
      S.origin t = S.origin t' := by
  obtain ⟨t, u, there, back⟩ := holding.views false
  exact ⟨t, u, there.has, back.has, congrArg Prod.snd (there.sender.1.trans back.sender.1.symm)⟩

theorem Holding.step (holding : Holding K peers s handshake side b) (laws : S.Lawful) (counts : K.Lawful) {event : BondEvent S}
    (step : Step peers b event b') (harmless : Harmless peers b event b') : Holding K peers s handshake side b' := by
  cases step with
  | send sends => exact holding.send laws counts sends
  | arrive flying _ passes => exact (holding.arrive laws counts flying passes (harmless _ (by rw [flying, List.head?_cons]))).2
  | @replay x datagram eph hs l sent _ passes =>
    obtain ⟨msg, rfl, short, first | second⟩ := holding.past _ _ sent
    · obtain ⟨out, st, _, answer, -⟩ := (holding.party x).receive_first laws first short eph
      exact absurd answer (harmless msg (Link.receive_hsSingle (holding.party x).buffer short eph).1 _)
    · exact holding.replay_second laws second short passes

theorem Holding.upholds_iff_harmless (holding : Holding K peers s handshake side b) (laws : S.Lawful) (counts : K.Lawful)
    {event : BondEvent S} (step : Step peers b event b') : Upholds peers b event b' ↔ Harmless peers b event b' := by
  constructor
  · intro upholds
    cases step with
    | send => trivial
    | @arrive x eph first rest hs l flying _ passes =>
      intro first' here fragment
      rw [flying, List.head?_cons, Option.some.injEq] at here
      subst here
      obtain ⟨_, _, -, back⟩ := holding.views x
      obtain ⟨l₁, sent, took, settles⟩ := passes
      obtain rfl := Link.receive_of_step took
      have receiver : (b.channel !x).receiver = b.link x := congrArg b.link (Bool.not_not x)
      have none := back.arrive_broken counts flying eph (fun intact => intact.2 fragment)
      have handed := upholds.delivered first (by rw [flying, List.head?_cons])
      simp only [after, Function.update_self] at handed
      rw [settles.tx, ← receiver, none] at handed
      exact absurd (congrArg List.length handed) (by simp)
    | @replay x datagram eph hs l sent fresh passes =>
      intro msg' completes answer read
      obtain ⟨msg, rfl, short, first | second⟩ := holding.past _ _ sent
      · obtain ⟨t, t', has, has', same⟩ := upholds.agree
        cases x with
        | false => exact holding.replay_first laws first short fresh passes has has' same
        | true => exact holding.replay_first laws first short fresh passes has' has same.symm
      · rw [(Link.receive_hsSingle (holding.party x).buffer short eph).1, Option.some.injEq] at completes
        subst completes
        exact second.unreadable laws _ eph answer read
  · intro harmless
    refine ⟨(holding.step laws counts step harmless).agree, ?_⟩
    cases step with
    | send => trivial
    | @arrive x eph first rest hs l flying _ passes =>
      intro first' here
      have tx := (holding.arrive laws counts flying passes (harmless _ (by rw [flying, List.head?_cons]))).1
      rw [flying, List.head?_cons, Option.some.injEq] at here
      subst here
      simpa [after] using tx
    | replay => trivial

variable [DecidableEq S.Ephemeral]

theorem mem_wire_of_sentBy {p p' : Pair S} {event : PairEvent S} (step : Pair.Step peers p event p') {entry : Bool × List UInt8}
    (sent : entry ∈ Pair.sentBy peers p event) : entry ∈ p'.wire := by
  cases event with
  | act x event =>
    simp only [Pair.Step, Pair.step] at step
    split at step
    next =>
      obtain ⟨⟨l, out⟩, moved, rfl⟩ := Option.map_eq_some_iff.mp step
      simp only [Pair.sentBy, moved] at sent
      exact List.mem_append_right _ sent
    next => cases step
  | deliver | other => cases sent

theorem mirrors_run (laws : S.Lawful) {before : List (PairEvent S)} {p : Pair S} {past : List (Bool × List UInt8)}
    (run : Run (Logged (Pair.Step peers) (Pair.sentBy peers)) (Pair.start S peers, []) before (p, past)) :
    ∃ history s, Pair.Mirrors peers p history s ∧ ∀ x datagram, (x, datagram) ∈ past → Pair.Carried peers s x datagram := by
  refine run.invariant (fun q => ∃ history s, Pair.Mirrors peers q.1 history s ∧
    ∀ x datagram, (x, datagram) ∈ q.2 → Pair.Carried peers s x datagram) ?_
    ⟨[], _, Pair.mirrors_start peers, fun _ _ member => by cases member⟩
  rintro ⟨q, sent⟩ event ⟨q', sent'⟩ ⟨history, s, mirrors, carried⟩ ⟨step, log⟩
  have logged : Logged (Pair.Step peers) (Pair.noted peers) (q, history) event (q', history ++ Pair.noted peers q event) :=
    ⟨step, rfl⟩
  obtain ⟨s', mirrors', kept⟩ := mirrors.step laws logged
  refine ⟨_, s', mirrors', fun x datagram member => ?_⟩
  dsimp only at log
  rw [log] at member
  rcases List.mem_append.mp member with old | now
  · exact kept x datagram (carried x datagram old)
  · exact mirrors'.carried x datagram (mem_wire_of_sentBy step now)

/-- Two links that have come to matching sessions, in any run. Whatever arrives again: both keep sessions of
one handshake, and every cell is handed on, exactly if no first message is among it and no ciphertext begins
like a handshake fragment. -/
theorem upholds_iff (laws : S.Lawful) (counts : K.Lawful) (peers : Peers) (before : List (PairEvent S)) (p : Pair S)
    (past : List (Bool × List UInt8))
    (run : Run (Logged (Pair.Step peers) (Pair.sentBy peers)) (Pair.start S peers, []) before (p, past))
    (idle : ∀ x, (p.link x).recv = .idle) (t : Bool → S.TransportState)
    (has : ∀ x, (p.link x).sessions.get (peers.addr !x) = some (t x)) (matching : ∀ x, K.Matching (t x) (t !x))
    (events : List (BondEvent S)) (b : Bond S) :
    Run (Such (Step peers) (Upholds peers)) (start p past) events b ↔
      Run (Such (Step peers) (Harmless peers)) (start p past) events b := by
  obtain ⟨history, s, mirrors, carried⟩ := mirrors_run laws run
  have holds (x : Bool) : Pair.Holds s x (t x) := by
    have session := (mirrors.party x).session
    rw [idle x] at session
    exact session (t x) (has x)
  obtain ⟨left, session, origin⟩ := holds false
  obtain ⟨right, session', origin'⟩ := holds true
  have same := Prod.mk.inj (origin.symm.trans ((congrArg Prod.snd (matching true).handshake).trans origin'))
  have holding : Holding K peers s (K.handshake (t false)) (fun x => K.initiator (t x)) (start p past) :=
    { party := mirrors.party
      idle := idle
      past := carried
      drawn := mirrors.drawn
      unanswered := mirrors.consistent.unanswered session session' same.1 same.2
      opened := by
        rw [Counters.handshake, origin]
        exact (mirrors.consistent.drawn left (mirrors.consistent.known _ _ session)).2
      sides := fun x => (matching x).initiator
      follows := ⟨t, fun x => by
        have same : K.handshake (t x) = K.handshake (t false) := by
          cases x with
          | false => rfl
          | true => exact (matching false).handshake
        exact
          { has := has x
            has' := by
              have other := has !x
              rwa [Bool.not_not] at other
            sender := ⟨same, rfl⟩
            receiver := ⟨(matching x).handshake.trans same, (matching x).initiator⟩
            order := (matching x).counter ▸ .empty _ _ }⟩ }
  exact Run.such_iff (fun b => Holding K peers s (K.handshake (t false)) (fun x => K.initiator (t x)) b)
    (fun _ _ _ holding such => holding.step laws counts such.1 ((holding.upholds_iff_harmless laws counts such.1).mp such.2))
    (fun _ _ _ holding step => holding.upholds_iff_harmless laws counts step) holding

end Bond

namespace CountedNoise

def settle : Nat → Link snow → Option (List (SocketAddr × List UInt8) × Link snow)
  | 0, _ => none
  | fuel + 1, l =>
    match l.recv with
    | .idle => some ([], l)
    | _ => do
      let (l, sent) ← l.stepRecv
      let (hs, l) ← settle fuel l
      return (sent.hs ++ hs, l)

theorem settles_of_settle {fuel : Nat} {l l' : Link snow} {hs : List (SocketAddr × List UInt8)}
    (settled : settle fuel l = some (hs, l')) : l.Settles hs l' := by
  induction fuel generalizing l hs with
  | zero => cases settled
  | succ fuel ih =>
    simp only [settle] at settled
    split at settled
    next idle =>
      cases settled
      exact .idle idle
    next =>
      obtain ⟨⟨l₁, sent⟩, step, settled⟩ := Option.bind_eq_some_iff.mp settled
      obtain ⟨⟨hs', l₂⟩, rest, same⟩ := Option.bind_eq_some_iff.mp settled
      cases same
      exact .handle step (ih rest)

def pass (l : Link snow) (src : SocketAddr) (datagram : List UInt8) (eph : UInt8) :
    Option (List (SocketAddr × List UInt8) × Link snow) := do
  let (l, _) ← l.step (.receive src datagram eph)
  settle 4 l

theorem passes_of_pass {l l' : Link snow} {src : SocketAddr} {datagram : List UInt8} {eph : UInt8}
    {hs : List (SocketAddr × List UInt8)} (passed : pass l src datagram eph = some (hs, l')) : l.Passes src datagram eph hs l' := by
  obtain ⟨⟨l₁, sent⟩, took, settled⟩ := Option.bind_eq_some_iff.mp passed
  exact ⟨l₁, sent, took, settles_of_settle settled⟩

def advance (b : Bond snow) : BondEvent snow → Option (Bond snow)
  | .send x i cell => (call (b.link x) i (peers.addr !x) cell).map fun (out, l) =>
      { b with link := Function.update b.link x l,
               flying := Function.update b.flying x (b.flying x ++ out.map fun sent => (cell, sent.2)) }
  | .arrive x eph =>
    match b.flying !x with
    | first :: rest =>
      if first.2.head? ≠ some 0x7F ∧ eph ∉ b.drawn then
        (pass (b.link x) (peers.addr !x) first.2 eph).map fun (hs, l) =>
          { b.after peers x eph hs l with flying := Function.update b.flying (!x) rest }
      else none
    | [] => none
  | .replay x datagram eph =>
    match (b.link x).message? (peers.addr !x) datagram with
    | some msg =>
      if (snow.respond (b.link x).localStatic msg eph).isOk = false ∧ b.past.contains (x, datagram) ∧ eph ∉ b.drawn then
        (pass (b.link x) (peers.addr !x) datagram eph).map fun (hs, l) => b.after peers x eph hs l
      else none
    | none => none

theorem such_of_advance {b b' : Bond snow} {event : BondEvent snow} (advanced : advance b event = some b') :
    Such (Bond.Step peers) (Bond.Harmless peers) b event b' := by
  cases event with
  | send x i cell =>
    obtain ⟨⟨out, l⟩, called, rfl⟩ := Option.map_eq_some_iff.mp advanced
    exact ⟨.send (sends_of_call called), trivial⟩
  | arrive x eph =>
    simp only [advance] at advanced
    split at advanced
    next first rest flying =>
      split at advanced
      next clear =>
        obtain ⟨⟨hs, l⟩, passed, rfl⟩ := Option.map_eq_some_iff.mp advanced
        refine ⟨.arrive flying clear.2 (passes_of_pass passed), fun first' here => ?_⟩
        rw [flying, List.head?_cons, Option.some.injEq] at here
        exact here ▸ clear.1
      next => cases advanced
    next => cases advanced
  | replay x datagram eph =>
    simp only [advance] at advanced
    split at advanced
    next msg completes =>
      split at advanced
      next clear =>
        obtain ⟨⟨hs, l⟩, passed, rfl⟩ := Option.map_eq_some_iff.mp advanced
        refine ⟨.replay (List.contains_iff_mem.mp clear.2.1) clear.2.2 (passes_of_pass passed), fun msg' here answer read => ?_⟩
        obtain rfl := Option.some.inj (completes.symm.trans here)
        rw [read] at clear
        cases clear.1
      next => cases advanced
    next => cases advanced

def track (q : Pair snow × List (Bool × List UInt8)) (event : PairEvent snow) : Option (Pair snow × List (Bool × List UInt8)) :=
  (q.1.step peers event).map fun p => (p, q.2 ++ Pair.sentBy peers q.1 event)

theorem logged_of_track {q q' : Pair snow × List (Bool × List UInt8)} {event : PairEvent snow} (tracked : track q event = some q') :
    Logged (Pair.Step peers) (Pair.sentBy peers) q event q' := by
  obtain ⟨p, step, rfl⟩ := Option.map_eq_some_iff.mp tracked
  exact ⟨step, rfl⟩

def matched? (p : Pair snow) : Bool :=
  match (p.link false).sessions.get (peers.addr true), (p.link true).sessions.get (peers.addr false),
    (p.link false).recv, (p.link true).recv with
  | some t, some u, .idle, .idle => counters.handshake u = counters.handshake t ∧ counters.initiator u = (!counters.initiator t) ∧
      counters.received u = counters.sent t ∧ counters.received t = counters.sent u
  | _, _, _, _ => false

theorem matched_some {p : Pair snow} (matched : matched? p = true) : (∀ x, (p.link x).recv = .idle) ∧
    ∃ t : Bool → snow.TransportState, (∀ x, (p.link x).sessions.get (peers.addr !x) = some (t x)) ∧
      ∀ x, counters.Matching (t x) (t !x) := by
  unfold matched? at matched
  split at matched
  next t u has has' idle idle' =>
    obtain ⟨handshake, initiator, there, back⟩ := of_decide_eq_true matched
    have initiator' : counters.initiator t = !counters.initiator u := by rw [initiator, Bool.not_not]
    refine ⟨fun x => ?_, fun x => if x then u else t, fun x => ?_, fun x => ?_⟩
    · cases x with
      | false => exact idle
      | true => exact idle'
    · cases x with
      | false => exact has
      | true => exact has'
    · cases x with
      | false => exact ⟨handshake, initiator, there⟩
      | true => exact ⟨handshake.symm, initiator', back⟩
  next => cases matched

def met? : Option (Pair snow × List (Bool × List UInt8)) := (meeting (letter 5)).foldlM track (Pair.start snow peers, [])

def firstOfAll : List UInt8 := hsSingle (firstMsg (peers.key false) (peers.key true) 12)
def itsAnswer : List UInt8 := hsSingle (secondMsg (peers.key false) (peers.key true) 12 23)

def talk : List (BondEvent snow) :=
  [.send false 1 (letter 5), .replay false itsAnswer (30 : UInt8), .arrive true (31 : UInt8), .send true 1 (letter 6),
   .replay false itsAnswer (32 : UInt8), .arrive false (33 : UInt8)]

theorem talk_upholds : ∃ p past b,
    Run (Logged (Pair.Step peers) (Pair.sentBy peers)) (Pair.start snow peers, []) (meeting (letter 5)) (p, past) ∧
    Run (Such (Bond.Step peers) (Bond.Upholds peers)) (Bond.start p past) talk b ∧
    (b.link true).tx = [(peers.addr false, letter 5)] ∧ (b.link false).tx = [(peers.addr true, letter 6)] := by
  have computed : (met?.bind fun q => (talk.foldlM advance (Bond.start q.1 q.2)).map fun b =>
      (matched? q.1, (b.link true).tx, (b.link false).tx)) =
        some (true, [(peers.addr false, letter 5)], [(peers.addr true, letter 6)]) := by
    decide +kernel
  obtain ⟨⟨p, past⟩, tracked, shown⟩ := Option.bind_eq_some_iff.mp computed
  obtain ⟨b, done, seen⟩ := Option.map_eq_some_iff.mp shown
  obtain ⟨matched, seen⟩ := Prod.mk.inj seen
  obtain ⟨idle, t, has, matching⟩ := matched_some matched
  have run : Run (Logged (Pair.Step peers) (Pair.sentBy peers)) (Pair.start snow peers, []) (meeting (letter 5)) (p, past) :=
    (Run.of_foldlM tracked).mono fun _ _ _ => logged_of_track
  refine ⟨p, past, b, run, ?_, Prod.mk.inj seen⟩
  refine (Bond.upholds_iff lawful counters_lawful peers _ p past run idle t has matching talk b).mpr ?_
  exact (Run.of_foldlM done).mono fun _ _ _ => such_of_advance

def redrawn : snow.Ephemeral := (30 : UInt8)

/-- The first message arrives once more. -/
theorem replay_parts : ∃ p past b, ∃ t : Bool → snow.TransportState,
    Run (Logged (Pair.Step peers) (Pair.sentBy peers)) (Pair.start snow peers, []) (meeting (letter 5)) (p, past) ∧
    (∀ x, (p.link x).recv = .idle) ∧ (∀ x, (p.link x).sessions.get (peers.addr !x) = some (t x)) ∧
    (∀ x, counters.Matching (t x) (t !x)) ∧ Bond.Step peers (Bond.start p past) (.replay true firstOfAll redrawn) b ∧
    ¬ Bond.Upholds peers (Bond.start p past) (.replay true firstOfAll redrawn) b := by
  have computed : (met?.bind fun q => (pass (q.1.link true) (peers.addr false) firstOfAll redrawn).bind fun r =>
      ((q.1.link false).sessions.get (peers.addr true)).bind fun t => (r.2.sessions.get (peers.addr false)).map fun u =>
        (matched? q.1, decide ((true, firstOfAll) ∈ q.2 ∧ redrawn ∉ q.1.drawn), decide (snow.origin t = snow.origin u))) =
          some (true, true, false) := by
    decide +kernel
  obtain ⟨⟨p, past⟩, tracked, shown⟩ := Option.bind_eq_some_iff.mp computed
  obtain ⟨⟨hs, l⟩, passed, shown⟩ := Option.bind_eq_some_iff.mp shown
  obtain ⟨t, has, shown⟩ := Option.bind_eq_some_iff.mp shown
  obtain ⟨u, has', seen⟩ := Option.map_eq_some_iff.mp shown
  obtain ⟨matched, seen⟩ := Prod.mk.inj seen
  obtain ⟨sent, differ⟩ := Prod.mk.inj seen
  obtain ⟨idle, sessions, held, matching⟩ := matched_some matched
  obtain ⟨member, fresh⟩ := of_decide_eq_true sent
  refine ⟨p, past, _, sessions, (Run.of_foldlM tracked).mono fun _ _ _ => logged_of_track, idle, held, matching,
    .replay member fresh (passes_of_pass passed), fun upholds => ?_⟩
  obtain ⟨t', u', before, after, same⟩ := upholds.agree
  obtain rfl := Option.some.inj (has.symm.trans before)
  obtain rfl := Option.some.inj (has'.symm.trans after)
  exact of_decide_eq_false differ same

end CountedNoise
end Nbf.Net

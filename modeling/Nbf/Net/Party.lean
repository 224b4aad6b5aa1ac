import Nbf.Net.Pair

/-! One link of two against the abstract exchange: what it holds belongs to
handshakes of the exchange, and every step it makes is one of the exchange or
none. -/

set_option autoImplicit false

namespace Nbf.Net

open Nbf.Library Nbf.Library.TwoMessage Nbf.Crypto

variable {S : Snow}

namespace Pair

section

variable (peers : Peers) (s : Exchange S.Ephemeral) (x : Bool)

def Second (msg : List UInt8) : Prop :=
  ∃ h ∈ s.accepted, h.initiator = x ∧ ∃ first st st',
    S.initiate (peers.key x) (S.publicKey (peers.key !x)) h.first = .ok (first, st) ∧
      S.respond (peers.key !x) first h.second = .ok (msg, st')

def First (msg : List UInt8) : Prop :=
  ∃ eph ∈ s.drawn, ∃ st, S.initiate (peers.key !x) (S.publicKey (peers.key x)) eph = .ok (msg, st)

def Carried (datagram : List UInt8) : Prop :=
  ∃ msg, datagram = hsSingle msg ∧ msg.length ≤ 1024 ∧ (First peers s x msg ∨ Second peers s x msg)

def Holds (t : S.TransportState) : Prop := ∃ h, s.session.get x = some h ∧ S.origin t = (h.first, h.second)

def Pending (src : SocketAddr) (st : S.HandshakeState) : Prop :=
  src = peers.addr !x ∧ S.remoteStatic st = some (S.publicKey (peers.key !x)) ∧
    ∃ t, S.intoTransportMode st = .ok t ∧ Holds s x t

structure Party (l : Link S) : Prop where
  own : l.localStatic = peers.key x
  pinned : l.peerStatics.get (peers.addr !x) = some (S.publicKey (peers.key !x))
  starting : ∀ i cell key, l.tasks.get i = some (.start (peers.addr !x) cell key) → key = S.publicKey (peers.key !x)
  attempt : ∀ st, l.hsInflight.get (peers.addr !x) = some st → ∃ eph msg, s.attempt.get x = some eph ∧
    S.initiate (peers.key x) (S.publicKey (peers.key !x)) eph = .ok (msg, st)
  buffer : l.hsBuf.get (peers.addr !x) = none
  session : match l.recv with
    | .idle => ∀ t, l.sessions.get (peers.addr !x) = some t → Holds s x t
    | .reply src st msg => Pending peers s x src st ∧ msg.length ≤ 1024 ∧ Second peers s (!x) msg
    | .learn src st => Pending peers s x src st
    | .store src st => Pending peers s x src st

end

/-- What a step of `x` leaves of the exchange as it was. -/
structure Grows (x : Bool) (s s' : Exchange S.Ephemeral) : Prop where
  attempt : s'.attempt.get (!x) = s.attempt.get (!x)
  session : s'.session.get (!x) = s.session.get (!x)
  accepted : s.accepted ⊆ s'.accepted
  drawn : s.drawn ⊆ s'.drawn

variable {peers : Peers} {s s' : Exchange S.Ephemeral} {x : Bool} {l l' : Link S}

theorem Grows.refl : Grows x s s := ⟨rfl, rfl, List.Subset.refl _, List.Subset.refl _⟩

theorem Second.mono {y : Bool} {msg : List UInt8} (second : Second peers s y msg) (more : s.accepted ⊆ s'.accepted) :
    Second peers s' y msg := by
  obtain ⟨h, member, rest⟩ := second
  exact ⟨h, more member, rest⟩

theorem Carried.mono {y : Bool} {datagram : List UInt8} (carried : Carried peers s y datagram) (grows : Grows x s s') :
    Carried peers s' y datagram := by
  obtain ⟨msg, same, short, ⟨eph, drawn, first⟩ | second⟩ := carried
  · exact ⟨msg, same, short, .inl ⟨eph, grows.drawn drawn, first⟩⟩
  · exact ⟨msg, same, short, .inr (second.mono grows.accepted)⟩

theorem Party.other (party : Party peers s (!x) l) (grows : Grows x s s') : Party peers s' (!x) l := by
  have holds (t : S.TransportState) (has : Holds s (!x) t) : Holds s' (!x) t := by
    obtain ⟨h, session, same⟩ := has
    exact ⟨h, grows.session.trans session, same⟩
  have pending (src : SocketAddr) (st : S.HandshakeState) (will : Pending peers s (!x) src st) : Pending peers s' (!x) src st := by
    obtain ⟨src', key, t, into, has⟩ := will
    exact ⟨src', key, t, into, holds t has⟩
  have session := party.session
  refine { party with attempt := fun st here => ?_, session := ?_ }
  · obtain ⟨eph, msg, attempt, made⟩ := party.attempt st here
    exact ⟨eph, msg, grows.attempt.trans attempt, made⟩
  · cases recv : l.recv with
    | idle =>
      rw [recv] at session
      exact fun t here => holds t (session t here)
    | reply src st msg =>
      rw [recv] at session
      exact ⟨pending src st session.1, session.2.1, session.2.2.mono grows.accepted⟩
    | learn src st =>
      rw [recv] at session
      exact pending src st session
    | store src st =>
      rw [recv] at session
      exact pending src st session

theorem Party.put (party : Party peers s x l) (i : Nat) {task : SendTask}
    (right : ∀ cell key, task = .start (peers.addr !x) cell key → key = S.publicKey (peers.key !x)) :
    Party peers s x (l.put i task) where
  own := party.own
  pinned := party.pinned
  starting j cell key here := by
    rcases Table.get_insert_some here with ⟨-, rfl⟩ | ⟨-, old⟩
    · exact right cell key rfl
    · exact party.starting j cell key old
  attempt := party.attempt
  buffer := party.buffer
  session := party.session

theorem Party.reuse (party : Party peers s x l) {addr : SocketAddr} {t t' : S.TransportState}
    (had : l.sessions.get addr = some t) (same : S.origin t' = S.origin t) :
    Party peers s x { l with sessions := l.sessions.insert addr t' } := by
  have session := party.session
  refine { party with session := ?_ }
  cases recv : l.recv with
  | idle =>
    rw [recv] at session
    intro t'' here
    rcases Table.get_insert_some here with ⟨rfl, rfl⟩ | ⟨-, old⟩
    · obtain ⟨h, has, from_⟩ := session t had
      exact ⟨h, has, same.trans from_⟩
    · exact session t'' old
  | reply | learn | store =>
    rw [recv] at session
    exact session

structure Simulated (peers : Peers) (x : Bool) (s : Exchange S.Ephemeral) (l : Link S) (sent : Sent)
    (new : List (Noted S.Ephemeral)) (drawn : List S.Ephemeral) (s' : Exchange S.Ephemeral) : Prop where
  steps : s' = s ∨ ∃ act, Exchange.Step s act s'
  grows : Grows x s s'
  accepted : s'.accepted = s.accepted ++ acceptedOf new
  completed : s'.completed = s.completed ++ completedOf new
  drawn : s'.drawn ⊆ drawn ++ s.drawn
  party : Party peers s' x l
  carried : ∀ dst datagram, (dst, datagram) ∈ sent.hs → dst = peers.addr !x → Carried peers s' (!x) datagram

theorem Party.unseen (party : Party peers s x l) {sent : Sent} (silent : sent.hs = []) (drawn : List S.Ephemeral) :
    Simulated peers x s l sent [] drawn s where
  steps := .inl rfl
  grows := .refl
  accepted := (List.append_nil _).symm
  completed := (List.append_nil _).symm
  drawn := List.subset_append_right ..
  party := party
  carried dst datagram member := by
    rw [silent] at member
    cases member

theorem Party.moves (party : Party peers s x l) (i : Nat) {task : SendTask} {sent : Sent} (silent : sent.hs = [])
    (drawn : List S.Ephemeral) (right : ∀ cell key, task = .start (peers.addr !x) cell key → key = S.publicKey (peers.key !x)) :
    ∃ s', Simulated peers x s (l.put i task) sent [] drawn s' :=
  ⟨s, (party.put i right).unseen silent drawn⟩

theorem Party.starts (party : Party peers s x l) (laws : S.Lawful) {addr : SocketAddr} {cell : Cell} {pubk : Octets 32} (i : Nat)
    {eph : S.Ephemeral} {msg : List UInt8} {st : S.HandshakeState} (here : l.tasks.get i = some (.start addr cell pubk))
    (fresh : eph ∉ s.drawn) (made : S.initiate l.localStatic pubk eph = .ok (msg, st)) :
    ∃ s', Simulated peers x s ({ l with hsInflight := l.hsInflight.insert addr st }.put i (.poll addr cell))
      { hs := (hsFragments msg).map fun frag => (addr, frag) } [] [eph] s' := by
  by_cases peer : addr = peers.addr !x
  · subst peer
    obtain rfl := party.starting i cell pubk here
    rw [party.own] at made
    refine ⟨{ s with attempt := s.attempt.insert x eph, drawn := eph :: s.drawn }, ?_⟩
    have attempted : Party peers { s with attempt := s.attempt.insert x eph, drawn := eph :: s.drawn } x
        { l with hsInflight := l.hsInflight.insert (peers.addr !x) st } :=
      { party with
        attempt := fun st' now => by
          rw [Table.get_insert_self, Option.some.injEq] at now
          subst now
          exact ⟨eph, msg, Table.get_insert_self .., made⟩
        session := party.session }
    exact
      { steps := .inr ⟨_, .start fresh⟩
        grows := ⟨Table.get_insert_of_ne _ _ (by simp), rfl, List.Subset.refl _, List.subset_cons_self _ _⟩
        accepted := (List.append_nil _).symm
        completed := (List.append_nil _).symm
        drawn := List.Subset.refl _
        party := attempted.put i fun _ _ other => by cases other
        carried := fun dst datagram member _ => by
          rw [hsFragments_short (laws.initiate_short made), List.map_cons, List.map_nil, List.mem_singleton,
            Prod.mk.injEq] at member
          refine ⟨msg, member.2, laws.initiate_short made, .inl ⟨eph, List.mem_cons_self, st, ?_⟩⟩
          rw [Bool.not_not]
          exact made }
  · have other : Party peers s x { l with hsInflight := l.hsInflight.insert addr st } :=
      { party with attempt := fun st' still => party.attempt st' (by rwa [Table.get_insert_of_ne _ _ (Ne.symm peer)] at still) }
    have unseen : Simulated peers x s ({ l with hsInflight := l.hsInflight.insert addr st }.put i (.poll addr cell))
        {} [] [eph] s :=
      (other.put i fun _ _ same => by cases same).unseen rfl [eph]
    refine ⟨s, { unseen with carried := ?_ }⟩
    intro dst datagram member same
    obtain ⟨frag, -, pair⟩ := List.mem_map.mp member
    rw [Prod.mk.injEq] at pair
    exact absurd (pair.1.trans same) peer

theorem Party.stepTask (party : Party peers s x l) (laws : S.Lawful) {i : Nat} {eph : S.Ephemeral} {task : SendTask} {sent : Sent}
    (here : l.tasks.get i = some task) (fresh : eph ∉ s.drawn) (step : l.stepTask i eph task = some (l', sent)) :
    ∃ s', Simulated peers x s l' sent [] [eph] s' := by
  cases task with
  | check addr cell =>
    simp only [Link.stepTask] at step
    split at step
    · cases step
      exact party.moves i rfl _ fun _ _ other => by cases other
    · cases step
      exact party.moves i rfl _ fun _ _ other => by cases other
  | key addr cell =>
    simp only [Link.stepTask] at step
    split at step
    next pubk known =>
      cases step
      refine party.moves i rfl _ fun _ key same => ?_
      cases same
      exact Option.some.inj (known.symm.trans party.pinned)
    next =>
      cases step
      exact party.moves i rfl _ fun _ _ other => by cases other
  | start addr cell pubk =>
    simp only [Link.stepTask] at step
    split at step
    next =>
      cases step
      exact party.moves i rfl _ fun _ _ other => by cases other
    next =>
      split at step
      next =>
        cases step
        exact party.moves i rfl _ fun _ _ other => by cases other
      next msg st made =>
        cases step
        exact party.starts laws i here fresh made
  | poll addr cell =>
    simp only [Link.stepTask] at step
    split at step
    · cases step
      exact party.moves i rfl _ fun _ _ other => by cases other
    · cases step
      exact ⟨s, party.unseen rfl _⟩
  | giveUp addr =>
    cases step
    have free : Party peers s x { l with hsInflight := l.hsInflight.remove addr } :=
      { party with attempt := fun st still => party.attempt st (Table.get_remove_some still) }
    exact free.moves i rfl _ fun _ _ other => by cases other
  | encrypt addr cell =>
    simp only [Link.stepTask] at step
    split at step
    next =>
      cases step
      exact party.moves i rfl _ fun _ _ other => by cases other
    next t had =>
      split at step
      · split at step
        next out t' wrote =>
          cases step
          exact (party.reuse had (laws.origin_write _ _ _ _ wrote)).moves i rfl _ fun _ _ other => by cases other
        next =>
          cases step
          exact party.moves i rfl _ fun _ _ other => by cases other
      · cases step
        exact party.moves i rfl _ fun _ _ other => by cases other
      · cases step
        exact party.moves i rfl _ fun _ _ other => by cases other
  | emit addr data =>
    cases step
    exact party.moves i rfl _ fun _ _ other => by cases other
  | done result => cases step

theorem Party.stepRecv (party : Party peers s x l) {sent : Sent} (step : l.stepRecv = some (l', sent)) :
    ∃ s', Simulated peers x s l' sent [] [] s' := by
  have session := party.session
  unfold Link.stepRecv at step
  cases recv : l.recv with
  | idle =>
    rw [recv] at step
    cases step
  | reply src st msg =>
    rw [recv] at step session
    cases step
    obtain ⟨pending, short, second⟩ := session
    have moved : Party peers s x { l with recv := .learn src st } := { party with session := pending }
    have unseen : Simulated peers x s { l with recv := .learn src st } {} [] [] s := moved.unseen rfl []
    refine ⟨s, { unseen with carried := fun dst datagram member _ => ?_ }⟩
    rw [hsFragments_short short, List.map_cons, List.map_nil, List.mem_singleton, Prod.mk.injEq] at member
    exact ⟨msg, member.2, short, .inr second⟩
  -- The key it learns is the one that is registered already.
  | learn src st =>
    rw [recv] at step session
    obtain ⟨rfl, key, into⟩ := session
    simp only [key] at step
    cases step
    have moved : Party peers s x { l with peerStatics := l.peerStatics.insert (peers.addr !x) (S.publicKey (peers.key !x)),
                                          recv := .store (peers.addr !x) st } :=
      { party with pinned := Table.get_insert_self .., session := ⟨rfl, key, into⟩ }
    exact ⟨s, moved.unseen rfl []⟩
  | store src st =>
    rw [recv] at step session
    obtain ⟨rfl, -, t, into, holds⟩ := session
    simp only [into] at step
    cases step
    have moved : Party peers s x { l with sessions := l.sessions.insert (peers.addr !x) t, recv := .idle } :=
      { party with
        session := fun t' here => by
          rw [Table.get_insert_self, Option.some.injEq] at here
          exact here ▸ holds }
    exact ⟨s, moved.unseen rfl []⟩

theorem Party.refuseTask (party : Party peers s x l) (laws : S.Lawful) {i count : Nat} {eph : S.Ephemeral} {reason : String}
    {task : SendTask} {sent : Sent} (step : l.refuseTask i eph count reason task = some (l', sent)) :
    ∃ s', Simulated peers x s l' sent [] [eph] s' := by
  cases task with
  | start addr cell pubk =>
    simp only [Link.refuseTask] at step
    split at step
    next msg st _ made =>
      rw [hsFragments_short (laws.initiate_short made)] at step
      split at step
      next within =>
        obtain rfl : count = 0 := by
          rw [List.length_singleton] at within
          omega
        cases step
        exact party.moves i rfl _ fun _ _ other => by cases other
      next => cases step
    next => cases step
  | emit addr data =>
    simp only [Link.refuseTask] at step
    split at step
    · cases step
      exact party.moves i rfl _ fun _ _ other => by cases other
    · cases step
  | check | key | poll | giveUp | encrypt | done => cases step

theorem Party.act (party : Party peers s x l) (laws : S.Lawful) {p : Pair S} (drawn : s.drawn ⊆ p.drawn)
    {event : LinkEvent S} (allowed : Allowed peers p x event) {sent : Sent} (step : l.step event = some (l', sent)) :
    ∃ s', Simulated peers x s l' sent [] (drawnBy event) s' := by
  cases event with
  | sendCell i addr cell =>
    simp only [Link.step] at step
    split at step
    · cases step
      exact party.moves i rfl _ fun _ _ other => by cases other
    · cases step
  | setPeerStatic addr key =>
    cases step
    have registered : Party peers s x (l.setPeerStatic addr key) :=
      { party with
        pinned := by
          by_cases peer : addr = peers.addr !x
          · rw [Link.setPeerStatic, peer, Table.get_insert_self, allowed peer]
          · rw [Link.setPeerStatic, Table.get_insert_of_ne _ _ (Ne.symm peer), party.pinned] }
    exact ⟨s, registered.unseen rfl _⟩
  | step i eph =>
    obtain ⟨task, here, step⟩ := Option.bind_eq_some_iff.mp step
    exact party.stepTask laws here (fun old => allowed (drawn old)) step
  | refuse i eph count reason =>
    obtain ⟨task, here, step⟩ := Option.bind_eq_some_iff.mp step
    exact party.refuseTask laws step
  | deadline i =>
    simp only [Link.step] at step
    split at step
    · split at step
      · cases step
        exact party.moves i rfl _ fun _ _ other => by cases other
      · cases step
    · cases step
  | receive src data eph => exact absurd allowed id
  | handle => exact party.stepRecv step

/-- A first message makes a link that listens accept, whatever it has in flight. -/
theorem Party.judge_first (party : Party peers s x l) (laws : S.Lawful) {msg : List UInt8} {eph : S.Ephemeral}
    {st : S.HandshakeState} (made : S.initiate (peers.key !x) (S.publicKey (peers.key x)) eph = .ok (msg, st))
    (eph' : S.Ephemeral) :
    ∃ out st' t, l.judge (peers.addr !x) msg eph' = .accepts out st' ∧
      S.respond (peers.key x) msg eph' = .ok (out, st') ∧ S.remoteStatic st' = some (S.publicKey (peers.key !x)) ∧
      S.intoTransportMode st' = .ok t ∧ S.origin t = (eph, eph') := by
  obtain ⟨out, st', t, answer, key, into, origin⟩ := laws.responds _ _ _ _ _ eph' made
  refine ⟨out, st', t, ?_, answer, key, into, origin⟩
  rw [← party.own] at answer
  simp only [Link.judge, answer]
  split
  · rfl
  next attempt flying =>
    -- An attempt reads answers to it only, and a first message is none.
    obtain ⟨mine, first, -, own⟩ := party.attempt attempt flying
    split
    next t' finished =>
      exact absurd finished (laws.first_unfinished _ _ _ _ _ _ _ _ _ _ _ own made)
    next => rfl

/-- A second message makes a link complete the attempt it answers, or does nothing. -/
theorem Party.judge_second (party : Party peers s x l) (laws : S.Lawful) {h : Shake S.Ephemeral} {first msg : List UInt8}
    {st st' : S.HandshakeState} (made : S.initiate (peers.key x) (S.publicKey (peers.key !x)) h.first = .ok (first, st))
    (answer : S.respond (peers.key !x) first h.second = .ok (msg, st')) (eph : S.Ephemeral) :
    l.judge (peers.addr !x) msg eph = .ignored ∨
      ∃ attempt t, l.judge (peers.addr !x) msg eph = .completes attempt t ∧ s.attempt.get x = some h.first ∧
        S.origin t = (h.first, h.second) := by
  -- No responder reads it.
  cases again : S.respond l.localStatic msg eph with
  | ok pair =>
    exact absurd again (laws.second_unanswered _ _ _ _ _ _ _ _ answer)
  | error reason =>
    cases flying : l.hsInflight.get (peers.addr !x) with
    | none =>
      left
      simp only [Link.judge, again, flying]
    | some attempt =>
      cases finished : S.finish attempt msg with
      | error reason =>
        left
        simp only [Link.judge, again, flying, finished]
      | ok t =>
        right
        obtain ⟨mine, first', attempted, own⟩ := party.attempt attempt flying
        obtain ⟨rfl, origin⟩ := laws.finish_only _ _ _ _ _ _ _ _ _ _ _ own answer finished
        obtain rfl := laws.first_once _ _ _ _ _ _ _ _ _ made own
        exact ⟨attempt, t, by simp only [Link.judge, flying, finished], attempted, origin⟩

theorem Party.drop (party : Party peers s x l) :
    Party peers s x { l with hsBuf := l.hsBuf.remove (peers.addr !x), hsInflight := l.hsInflight.remove (peers.addr !x) } :=
  { party with
    attempt := fun st still => party.attempt st (Table.get_remove_some still)
    buffer := Table.get_remove_self .. }

theorem Party.accepts (party : Party peers s x l) (laws : S.Lawful) {first out : List UInt8} {eph eph' : S.Ephemeral}
    {st st' : S.HandshakeState} {t : S.TransportState} (drawn : eph ∈ s.drawn) (fresh : eph' ∉ s.drawn)
    (made : S.initiate (peers.key !x) (S.publicKey (peers.key x)) eph = .ok (first, st))
    (answer : S.respond (peers.key x) first eph' = .ok (out, st')) (key : S.remoteStatic st' = some (S.publicKey (peers.key !x)))
    (into : S.intoTransportMode st' = .ok t) (origin : S.origin t = (eph, eph')) :
    ∃ s', Simulated peers x s
      { l with hsBuf := l.hsBuf.remove (peers.addr !x), hsInflight := l.hsInflight.remove (peers.addr !x),
               recv := .reply (peers.addr !x) st' out } {} [.accepted ⟨!x, eph, eph'⟩] [eph'] s' := by
  let h : Shake S.Ephemeral := ⟨!x, eph, eph'⟩
  let s' : Exchange S.Ephemeral := { s with attempt := s.attempt.remove x, session := s.session.insert x h,
                                            accepted := s.accepted ++ [h], drawn := eph' :: s.drawn }
  have accept : Exchange.Step s (.accept h) s' := by
    have step := Exchange.Step.accept (s := s) (h := h) drawn fresh
    rwa [Bool.not_not] at step
  have other : x ≠ !x := by simp
  refine ⟨s', ?_⟩
  exact
    { steps := .inr ⟨_, accept⟩
      grows := ⟨Table.get_remove_of_ne _ other.symm, Table.get_insert_of_ne _ _ other.symm,
        List.subset_append_left .., List.subset_cons_self _ _⟩
      accepted := rfl
      completed := (List.append_nil _).symm
      drawn := List.Subset.refl _
      party :=
        { own := party.own
          pinned := party.pinned
          starting := party.starting
          attempt := fun _ still => by
            rw [Table.get_remove_self] at still
            cases still
          buffer := Table.get_remove_self ..
          session := by
            refine ⟨⟨rfl, key, t, into, h, Table.get_insert_self .., origin⟩, laws.respond_short answer, h,
              List.mem_append_right _ (List.mem_singleton_self _), rfl, first, st, st', ?_, ?_⟩
            · rw [Bool.not_not]
              exact made
            · rw [Bool.not_not]
              exact answer }
      carried := fun _ _ member => by cases member }

theorem Party.completes (party : Party peers s x l) (idle : l.recv = .idle) {first second : S.Ephemeral} {t : S.TransportState}
    (member : ⟨x, first, second⟩ ∈ s.accepted) (attempted : s.attempt.get x = some first)
    (origin : S.origin t = (first, second)) :
    ∃ s', Simulated peers x s
      { l with hsBuf := l.hsBuf.remove (peers.addr !x), hsInflight := l.hsInflight.remove (peers.addr !x),
               sessions := l.sessions.insert (peers.addr !x) t } {} [.completed ⟨x, first, second⟩] [] s' := by
  let h : Shake S.Ephemeral := ⟨x, first, second⟩
  let s' : Exchange S.Ephemeral := { s with attempt := s.attempt.remove x, session := s.session.insert x h,
                                            completed := s.completed ++ [h] }
  have complete : Exchange.Step s (.complete h) s' := .complete member attempted
  have other : x ≠ !x := by simp
  refine ⟨s', ?_⟩
  exact
    { steps := .inr ⟨_, complete⟩
      grows := ⟨Table.get_remove_of_ne _ other.symm, Table.get_insert_of_ne _ _ other.symm,
        List.Subset.refl _, List.Subset.refl _⟩
      accepted := (List.append_nil _).symm
      completed := rfl
      drawn := List.Subset.refl _
      party :=
        { own := party.own
          pinned := party.pinned
          starting := party.starting
          attempt := fun _ still => by
            rw [Table.get_remove_self] at still
            cases still
          buffer := Table.get_remove_self ..
          session := by
            rw [idle]
            intro t' here
            rw [Table.get_insert_self, Option.some.injEq] at here
            exact ⟨h, Table.get_insert_self .., here ▸ origin⟩ }
      carried := fun _ _ member => by cases member }

theorem Party.deliver (party : Party peers s x l) (laws : S.Lawful) (idle : l.recv = .idle) {datagram : List UInt8}
    (carried : Carried peers s x datagram) {eph : S.Ephemeral} (fresh : eph ∉ s.drawn) {p : Pair S} (same : p.link x = l) :
    ∃ s', Simulated peers x s (l.receive (peers.addr !x) datagram eph) {} (noted peers p (.deliver x datagram eph)) [eph] s' := by
  obtain ⟨msg, rfl, short, kind⟩ := carried
  obtain ⟨message, received⟩ := Link.receive_hsSingle party.buffer short eph
  rw [received]
  have judged : ({ l with hsBuf := l.hsBuf.remove (peers.addr !x) } : Link S).judge (peers.addr !x) msg eph =
    l.judge (peers.addr !x) msg eph := rfl
  rcases kind with ⟨first, drawn, st, made⟩ | ⟨h, member, rfl, first, st, st', made, answer⟩
  · obtain ⟨out, st', t, verdict, answer, key, into, origin⟩ := party.judge_first laws made eph
    simp only [Link.handleHs, judged, noted, same, message, verdict, into, origin]
    exact party.accepts laws drawn fresh made answer key into origin
  · rcases party.judge_second laws made answer eph with verdict | ⟨attempt, t, verdict, attempted, origin⟩
    · simp only [Link.handleHs, judged, noted, same, message, verdict]
      exact ⟨s, party.drop.unseen rfl [eph]⟩
    · simp only [Link.handleHs, judged, noted, same, message, verdict, origin]
      obtain ⟨s', sim⟩ := party.completes idle member attempted origin
      exact ⟨s', { sim with drawn := fun e new => List.mem_append_right _ (sim.drawn new) }⟩

theorem Party.receiveCell (party : Party peers s x l) (laws : S.Lawful) (src : SocketAddr) (data : List UInt8) :
    Party peers s x (l.receiveCell src data) := by
  obtain ⟨tx, same | ⟨t, out, t', had, read, same⟩⟩ := l.receiveCell_cases src data
  · rw [same]
    exact { party with session := party.session }
  · rw [same]
    have reused := party.reuse had (laws.origin_read t data out t' read)
    exact { reused with session := reused.session }

end Pair
end Nbf.Net

import Nbf.Net.Party
import Nbf.Net.PlainNoise

/-! When both links of a pair have a session, are the two of one handshake? -/

set_option autoImplicit false

namespace Nbf.Net

open Nbf.Library Nbf.Library.TwoMessage Nbf.Crypto

variable {S : Snow}

namespace Pair

variable {peers : Peers} {s s' : Exchange S.Ephemeral} {x : Bool} {l' : Link S}

/-- Every datagram that is on the wire is a message of one of the two. -/
structure Mirrors (peers : Peers) (p : Pair S) (history : List (Noted S.Ephemeral)) (s : Exchange S.Ephemeral) : Prop where
  consistent : s.Consistent
  party : ∀ x, Party peers s x (p.link x)
  carried : ∀ x datagram, (x, datagram) ∈ p.wire → Carried peers s x datagram
  drawn : s.drawn ⊆ p.drawn
  accepted : s.accepted = acceptedOf history
  completed : s.completed = completedOf history

theorem mirrors_start (peers : Peers) : Mirrors peers (start S peers) [] .empty where
  consistent := Exchange.consistent_empty
  party x :=
    { own := rfl
      pinned := Table.get_insert_self ..
      starting := fun _ _ _ here => by cases here
      attempt := fun _ here => by cases here
      buffer := rfl
      session := fun _ here => by cases here }
  carried _ _ member := by cases member
  drawn := List.Subset.refl _
  accepted := rfl
  completed := rfl

theorem Mirrors.advance {p : Pair S} {history : List (Noted S.Ephemeral)} (mirrors : Mirrors peers p history s) {sent : Sent}
    {new : List (Noted S.Ephemeral)} {drawn : List S.Ephemeral} (sim : Simulated peers x s l' sent new drawn s')
    {wire : List (Bool × List UInt8)} (less : wire ⊆ p.wire) :
    Mirrors peers { link := Function.update p.link x l', wire := wire ++ outgoing peers x sent, drawn := drawn ++ p.drawn }
      (history ++ new) s' where
  consistent := by
    rcases sim.steps with rfl | ⟨act, step⟩
    · exact mirrors.consistent
    · exact mirrors.consistent.step step
  -- The other link is the same, and what it holds is still in the exchange.
  party y := by
    change Party peers s' y (Function.update p.link x l' y)
    by_cases same : y = x
    · subst same
      rw [Function.update_self]
      exact sim.party
    · have other : y = !x := Bool.eq_not.mpr same
      rw [Function.update_of_ne same]
      subst other
      exact (mirrors.party _).other sim.grows
  carried y datagram member := by
    rcases List.mem_append.mp member with old | now
    · exact (mirrors.carried y datagram (less old)).mono sim.grows
    · obtain ⟨⟨dst, frag⟩, from_, kept⟩ := List.mem_filterMap.mp now
      dsimp only at kept
      split at kept
      next peer =>
        cases kept
        exact sim.carried dst datagram from_ peer
      next => cases kept
  drawn := fun e here => by
    rcases List.mem_append.mp (sim.drawn here) with now | old
    · exact List.mem_append_left _ now
    · exact List.mem_append_right _ (mirrors.drawn old)
  accepted := by rw [sim.accepted, mirrors.accepted, acceptedOf, acceptedOf, acceptedOf, List.filterMap_append]
  completed := by rw [sim.completed, mirrors.completed, completedOf, completedOf, completedOf, List.filterMap_append]

theorem Mirrors.advanceQuiet {p : Pair S} {history : List (Noted S.Ephemeral)} (mirrors : Mirrors peers p history s)
    {new : List (Noted S.Ephemeral)} {drawn : List S.Ephemeral} (sim : Simulated peers x s l' {} new drawn s')
    {wire : List (Bool × List UInt8)} (less : wire ⊆ p.wire) :
    Mirrors peers { link := Function.update p.link x l', wire, drawn := drawn ++ p.drawn } (history ++ new) s' := by
  have advanced := mirrors.advance sim less
  rwa [outgoing, List.filterMap_nil, List.append_nil] at advanced

variable [DecidableEq S.Ephemeral]

theorem Mirrors.step (laws : S.Lawful) {p p' : Pair S} {history history' : List (Noted S.Ephemeral)} {event : PairEvent S}
    (mirrors : Mirrors peers p history s) (step : Logged (Step peers) (noted peers) (p, history) event (p', history')) :
    ∃ s', Mirrors peers p' history' s' ∧ ∀ x datagram, Carried peers s x datagram → Carried peers s' x datagram := by
  obtain ⟨move, rfl⟩ : p.step peers event = some p' ∧ history' = history ++ noted peers p event := step
  have listening (x : Bool) {src : SocketAddr} {datagram : List UInt8} {eph : S.Ephemeral} {l : Link S} {sent : Sent}
      (took : (p.link x).step (.receive src datagram eph) = some (l, sent)) :
      (p.link x).recv = .idle ∧ (p.link x).receive src datagram eph = l := by
    simp only [Link.step] at took
    split at took
    next idle =>
      cases took
      exact ⟨idle, rfl⟩
    next => cases took
  cases event with
  | act x event =>
    simp only [Pair.step] at move
    split at move
    next allowed =>
      obtain ⟨⟨l, sent⟩, step, rfl⟩ := Option.map_eq_some_iff.mp move
      obtain ⟨s', sim⟩ := (mirrors.party x).act laws mirrors.drawn allowed step
      exact ⟨s', mirrors.advance sim (List.Subset.refl _), fun _ _ old => old.mono sim.grows⟩
    next => cases move
  | deliver x datagram eph =>
    simp only [Pair.step] at move
    split at move
    next flying =>
      obtain ⟨⟨l, sent⟩, took, rfl⟩ := Option.map_eq_some_iff.mp move
      obtain ⟨idle, rfl⟩ := listening x took
      obtain ⟨s', sim⟩ := (mirrors.party x).deliver laws idle (mirrors.carried x datagram flying.1)
        (fun old => flying.2 (mirrors.drawn old)) rfl
      exact ⟨s', mirrors.advanceQuiet sim (List.erase_subset ..), fun _ _ old => old.mono sim.grows⟩
    next => cases move
  | other x datagram eph =>
    simp only [Pair.step] at move
    split at move
    next => cases move
    next noFragment =>
      obtain ⟨⟨l, sent⟩, took, rfl⟩ := Option.map_eq_some_iff.mp move
      obtain ⟨-, rfl⟩ := listening x took
      have party : Party peers s x ((p.link x).receive (peers.addr !x) datagram eph) := by
        simp only [Link.receive, noFragment]
        split
        next impossible => cases impossible
        next =>
          split
          · exact mirrors.party x
          · exact (mirrors.party x).receiveCell laws _ _
      have sim : Simulated peers x s ((p.link x).receive (peers.addr !x) datagram eph) {} [] [] s := party.unseen rfl []
      exact ⟨s, mirrors.advanceQuiet sim (List.Subset.refl _), fun _ _ old => old⟩

/-- No handshake datagram is in flight or being answered. -/
def Quiet (p : Pair S) : Prop := p.wire = [] ∧ ∀ x, (p.link x).recv = .idle

/-- The handshake that was accepted last is one that its initiator has completed. -/
def LastCompleted (history : List (Noted S.Ephemeral)) : Prop :=
  ∃ last, (acceptedOf history).getLast? = some last ∧ last ∈ completedOf history

/-- Any order of sends, timeouts and deliveries. When all is quiet and both have a session, the two
are of one handshake exactly if the msg2 of the handshake that was accepted last found its
initiator still waiting for it. -/
theorem sessions_agree_iff (laws : S.Lawful) (peers : Peers) (events : List (PairEvent S)) (p : Pair S)
    (history : List (Noted S.Ephemeral)) (run : Run (Logged (Step peers) (noted peers)) (start S peers, []) events (p, history))
    (quiet : p.Quiet) (t t' : S.TransportState) (has : (p.link false).sessions.get (peers.addr true) = some t)
    (has' : (p.link true).sessions.get (peers.addr false) = some t') :
    S.origin t = S.origin t' ↔ LastCompleted history := by
  obtain ⟨s, mirrors⟩ := run.invariant (fun q => ∃ s, Mirrors peers q.1 q.2 s)
    (fun _ _ _ ⟨_, before⟩ step => (before.step laws step).imp fun _ after => after.1) ⟨_, mirrors_start peers⟩
  have left := (mirrors.party false).session
  have right := (mirrors.party true).session
  rw [quiet.2] at left right
  obtain ⟨h, session, origin⟩ := left t has
  obtain ⟨h', session', origin'⟩ := right t' has'
  have agree := mirrors.consistent.agree_iff session session'
  rw [mirrors.accepted, mirrors.completed] at agree
  rw [origin, origin', Prod.mk.injEq]
  exact agree

end Pair

namespace PlainNoise

def peers : Peers where
  key x := .replicate 32 (if x then 2 else 1)
  addr x := ⟨.v4 loopback, if x then 9300 else 9200⟩

def padding : Cell := ⟨0, .padding, 0, []⟩

def opening (x : Bool) (idle idle' first : UInt8) : List (PairEvent snow) :=
  [.act x (.sendCell 0 (peers.addr !x) padding), .act x (.step 0 idle), .act x (.step 0 idle'), .act x (.step 0 first)]

def answering (x : Bool) (first second : UInt8) : List (PairEvent snow) :=
  [.deliver x (hsSingle (firstMsg (peers.key !x) (peers.key x) first)) second, .act x .handle, .act x .handle, .act x .handle]

def origins (p : Pair snow) : Option ((UInt8 × UInt8) × (UInt8 × UInt8)) :=
  match p.wire, (p.link false).recv, (p.link true).recv with
  | [], .idle, .idle => do
    let t ← (p.link false).sessions.get (peers.addr true)
    let t' ← (p.link true).sessions.get (peers.addr false)
    return (snow.origin t, snow.origin t')
  | _, _, _ => none

theorem origins_some {p : Pair snow} {first second : UInt8 × UInt8} (settled : origins p = some (first, second)) :
    p.Quiet ∧ ∃ t t', (p.link false).sessions.get (peers.addr true) = some t ∧
      (p.link true).sessions.get (peers.addr false) = some t' ∧ snow.origin t = first ∧ snow.origin t' = second := by
  unfold origins at settled
  split at settled
  next wire left right =>
    obtain ⟨t, has, rest⟩ := Option.bind_eq_some_iff.mp settled
    obtain ⟨t', has', same⟩ := Option.bind_eq_some_iff.mp rest
    cases same
    refine ⟨⟨wire, fun x => ?_⟩, t, t', has, has', rfl, rfl⟩
    cases x with
    | false => exact left
    | true => exact right
  next => cases settled

def lone : List (PairEvent snow) :=
  opening false 10 11 12 ++ answering true 12 23 ++
    [.deliver false (hsSingle (secondMsg (peers.key false) (peers.key true) 12 23)) (14 : UInt8)]

theorem lone_completed : ∃ p history,
    Run (Logged (Pair.Step peers) (Pair.noted peers)) (Pair.start snow peers, []) lone (p, history) ∧
      Pair.LastCompleted history := by
  have computed : (lone.foldlM (Pair.step peers) (Pair.start snow peers)).bind origins = some ((12, 23), (12, 23)) := by
    decide +kernel
  obtain ⟨p, done, settled⟩ := Option.bind_eq_some_iff.mp computed
  obtain ⟨quiet, t, t', has, has', first, second⟩ := origins_some settled
  obtain ⟨history, run⟩ : ∃ history,
      Run (Logged (Pair.Step peers) (Pair.noted peers)) (Pair.start snow peers, []) lone (p, history) :=
    (Run.of_foldlM done).logged []
  exact ⟨p, history, run, (Pair.sessions_agree_iff lawful peers lone p history run quiet t t' has has').mp
    (first.trans second.symm)⟩

/-- Both open, each answers the other and drops its own attempt. -/
def crossing : List (PairEvent snow) :=
  opening false 10 11 12 ++ opening true 20 21 22 ++ answering true 12 23 ++ answering false 22 13 ++
    [.deliver false (hsSingle (secondMsg (peers.key false) (peers.key true) 12 23)) (14 : UInt8),
     .deliver true (hsSingle (secondMsg (peers.key true) (peers.key false) 22 13)) (24 : UInt8)]

theorem crossing_disagrees : ∃ p t t', Run (Pair.Step peers) (Pair.start snow peers) crossing p ∧ p.Quiet ∧
    (p.link false).sessions.get (peers.addr true) = some t ∧ (p.link true).sessions.get (peers.addr false) = some t' ∧
    snow.origin t ≠ snow.origin t' := by
  have computed : (crossing.foldlM (Pair.step peers) (Pair.start snow peers)).bind origins = some ((22, 13), (12, 23)) := by
    decide +kernel
  obtain ⟨p, done, settled⟩ := Option.bind_eq_some_iff.mp computed
  obtain ⟨quiet, t, t', has, has', first, second⟩ := origins_some settled
  refine ⟨p, t, t', Run.of_foldlM done, quiet, has, has', ?_⟩
  rw [first, second]
  exact fun same => absurd (Prod.mk.inj same).1 (by decide : (22 : UInt8) ≠ 12)

end PlainNoise
end Nbf.Net

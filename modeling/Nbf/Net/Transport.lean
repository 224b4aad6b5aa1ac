import Nbf.Net.CountedNoise

/-! Encrypted cells on a link.

A ciphertext carries no mark of its own: the receive loop tells it from a
handshake fragment by its first byte.
-/

set_option autoImplicit false

namespace Nbf.Net

open Nbf.Library Nbf.Crypto

variable {S : Snow}

namespace Link

/-! ## One cell -/

/-- A call of `send_cell` that has found a session encrypts its cell; it has `out` to send. -/
def Encrypts (l : Link S) (dst : SocketAddr) (cell : Cell) (out : List UInt8) (l' : Link S) : Prop :=
  ∃ i eph, l.tasks.get i = some (.encrypt dst cell) ∧ l.step (.step i eph) = some (l', {}) ∧
    l'.tasks.get i = some (.emit dst out)

theorem Encrypts.written {l l' : Link S} {dst : SocketAddr} {cell : Cell} {out : List UInt8}
    (encrypts : l.Encrypts dst cell out l') :
    ∃ t t' buf, l.sessions.get dst = some t ∧ cell.encode = .ok buf ∧ S.transportWrite t buf.bytes = .ok (out, t') := by
  obtain ⟨i, eph, task, step, emits⟩ := encrypts
  simp only [Link.step, task, Option.bind_some, stepTask] at step
  split at step
  next =>
    cases step
    simp [put] at emits
  next t has =>
    split at step
    next buf encoded =>
      split at step
      next out' t' wrote =>
        cases step
        simp only [put, Table.get_insert_self, Option.some.injEq, SendTask.emit.injEq, true_and] at emits
        subst emits
        exact ⟨t, t', buf, has, encoded, wrote⟩
      next =>
        cases step
        simp [put] at emits
    all_goals
      cases step
      simp [put] at emits

/-- The datagram gets through: decrypted under the session, handed on as the cell, and not taken for
a handshake fragment. -/
structure Delivers (l : Link S) (src : SocketAddr) (out : List UInt8) (cell : Cell) (l' : Link S) : Prop where
  tx : l'.tx = l.tx ++ [(src, cell)]
  buffer : l'.hsBuf = l.hsBuf
  decrypted : ∃ u plain u', l.sessions.get src = some u ∧ S.transportRead u out = .ok (plain, u') ∧
    Cell.decode plain = .ok cell ∧ l'.sessions.get src = some u'

def next (l : Link S) (event : LinkEvent S) : Option (Link S) := (l.step event).map Prod.fst

theorem step_of_next {l l' : Link S} {event : LinkEvent S} (taken : l.next event = some l') : l.Step event l' := by
  obtain ⟨⟨_, sent⟩, step, rfl⟩ := Option.map_eq_some_iff.mp taken
  exact ⟨sent, step⟩

theorem receive_of_step {l l' : Link S} {src : SocketAddr} {datagram : List UInt8} {eph : S.Ephemeral} {sent : Sent}
    (took : l.step (.receive src datagram eph) = some (l', sent)) : l.receive src datagram eph = l' := by
  simp only [Link.step] at took
  split at took
  · exact congrArg Prod.fst (Option.some.inj took)
  · cases took

theorem receive_fragment_tx (l : Link S) (src : SocketAddr) {datagram : List UInt8} (eph : S.Ephemeral)
    (fragment : isFragment (datagram.take hsDgram) = true) : (l.receive src datagram eph).tx = l.tx := by
  have gathered (total idx : UInt16) (chunk : List UInt8) : (l.gatherHs src total idx chunk).2.tx = l.tx := by
    unfold gatherHs
    dsimp only
    split <;> rfl
  have handled (l' : Link S) (msg : List UInt8) : (l'.handleHs src msg eph).tx = l'.tx := by
    unfold handleHs
    dsimp only
    split <;> rfl
  have took := gathered (u16OfLe (((datagram.take hsDgram).drop 1).take 2)) (u16OfLe (((datagram.take hsDgram).drop 3).take 2))
    ((datagram.take hsDgram).drop 5)
  simp only [receive, if_pos fragment]
  change (l.takeFragment src (datagram.take hsDgram)).2.tx = l.tx at took
  generalize l.takeFragment src (datagram.take hsDgram) = taken at took
  obtain ⟨full, l'⟩ := taken
  cases full with
  | none => exact took
  | some msg => exact (handled l' msg).trans took

theorem receive_other {l : Link S} {src : SocketAddr} {datagram : List UInt8} (eph : S.Ephemeral)
    (other : isFragment (datagram.take hsDgram) = false) (some : datagram.take hsDgram ≠ []) :
    l.receive src datagram eph = l.receiveCell src (datagram.take hsDgram) := by
  have cell : ¬ isFragment (datagram.take hsDgram) = true := by rw [other]; exact Bool.false_ne_true
  simp only [receive, if_neg cell, if_neg some]

/-- An encrypted cell is taken for a fragment by its first byte alone. -/
theorem receive_ciphertext (l : Link S) (src : SocketAddr) {out : List UInt8} (eph : S.Ephemeral)
    (size : out.length = cellLen + 16) :
    isFragment (out.take hsDgram) = decide (out.head? = some 0x7F) ∧
      (out.head? ≠ some 0x7F → l.receive src out eph = l.receiveCell src out) := by
  have whole : out.take hsDgram = out := List.take_of_length_le (by rw [size]; decide)
  have long : 5 ≤ out.length := by rw [size]; decide
  have kind : isFragment (out.take hsDgram) = decide (out.head? = some 0x7F) := by simp [whole, isFragment, long]
  refine ⟨kind, fun other => ?_⟩
  have some : out.take hsDgram ≠ [] := by
    rw [whole]
    rintro rfl
    cases long
  rw [receive_other eph (kind.trans (decide_eq_false other)) some, whole]

theorem receiveCell_read {l : Link S} {src : SocketAddr} {out : List UInt8} {u u' : S.TransportState} {cell : Cell}
    {buf : Octets cellLen} (has : l.sessions.get src = some u) (read : S.transportRead u out = .ok (buf.bytes, u'))
    (encoded : cell.encode = .ok buf) :
    l.receiveCell src out = { l with sessions := l.sessions.insert src u', tx := l.tx ++ [(src, cell)] } := by
  simp only [receiveCell, has, read, Cell.decode_encode encoded]

theorem receiveCell_unread {l : Link S} {src : SocketAddr} {out : List UInt8} {u : S.TransportState}
    (has : l.sessions.get src = some u) (unread : ∀ msg u', S.transportRead u out ≠ .ok (msg, u'))
    (size : out.length = cellLen + 16) : l.receiveCell src out = l := by
  have long : Cell.decode out = .error (.badLength out.length) := if_pos (by rw [size]; simp)
  cases read : S.transportRead u out with
  | ok opened => exact absurd read (unread opened.1 opened.2)
  | error reason => simp only [receiveCell, has, read, long]

/-- An encrypted cell that matches the session it arrives at gets through, exactly, unless it
begins like a handshake fragment. -/
theorem delivers_iff {K : Counters S} (laws : K.Lawful) (l l' r r' : Link S) (dst src : SocketAddr) (cell : Cell)
    (out : List UInt8) (encrypts : l.Encrypts dst cell out l') (t u : S.TransportState)
    (has : l.sessions.get dst = some t) (has' : r.sessions.get src = some u) (matching : K.Matching t u)
    (eph : S.Ephemeral) (sent : Sent) (received : r.step (.receive src out eph) = some (r', sent)) :
    r.Delivers src out cell r' ↔ out.head? ≠ some 0x7F := by
  obtain ⟨_, t', buf, had, encoded, wrote⟩ := encrypts.written
  obtain rfl := Option.some.inj (has.symm.trans had)
  obtain rfl := receive_of_step received
  have size : out.length = cellLen + 16 := by rw [(laws.write t _ out t' wrote).2.2.2.2, buf.size]
  obtain ⟨kind, apart⟩ := r.receive_ciphertext src eph size
  constructor
  · intro delivers fragment
    have none := r.receive_fragment_tx src eph (kind.trans (decide_eq_true fragment))
    rw [delivers.tx] at none
    exact absurd (congrArg List.length none) (by simp)
  · intro other
    have written : K.Written (K.handshake u) (K.initiator t) (K.received u) buf.bytes out :=
      ⟨t, t', matching.handshake.symm, rfl, matching.counter.symm, wrote⟩
    obtain ⟨u', read⟩ := laws.accepts u _ _ _ written matching.initiator
    rw [apart other, receiveCell_read has' read encoded]
    exact ⟨rfl, rfl, u, _, u', has', read, Cell.decode_encode encoded, Table.get_insert_self ..⟩

end Link

namespace CountedNoise

structure Passage where
  task : SendTask
  matching : Bool
  first : Option UInt8
  tx : List (SocketAddr × Cell)
  emptyBuffer : Bool
  deriving DecidableEq

def passage (p : Pair snow) : Option Passage := do
  let task ← (p.link false).tasks.get 0
  let (l, ⟨[], []⟩) ← (p.link false).step (.step 0 (16 : UInt8)) | none
  let .emit dst out ← l.tasks.get 0 | none
  let (r, _) ← (p.link true).step (.receive (peers.addr false) out (24 : UInt8))
  return ⟨task, matching? p ∧ dst = peers.addr true, out.head?, r.tx, (r.hsBuf.get (peers.addr false)).isNone⟩

theorem passage_some {p : Pair snow} {cell : Cell} {first : Option UInt8} {tx : List (SocketAddr × Cell)} {kept : Bool}
    (shown : passage p = some ⟨.encrypt (peers.addr true) cell, true, first, tx, kept⟩) :
    ∃ t u out l r, (p.link false).sessions.get (peers.addr true) = some t ∧
      (p.link true).sessions.get (peers.addr false) = some u ∧ counters.Matching t u ∧
      (p.link false).Encrypts (peers.addr true) cell out l ∧
      (∃ sent, (p.link true).step (.receive (peers.addr false) out (24 : UInt8)) = some (r, sent)) ∧
      out.head? = first ∧ r.tx = tx ∧ (r.hsBuf.get (peers.addr false)).isNone = kept := by
  obtain ⟨task, here, shown⟩ := Option.bind_eq_some_iff.mp shown
  obtain ⟨⟨l, sent⟩, step, shown⟩ := Option.bind_eq_some_iff.mp shown
  split at shown
  next l' same =>
    obtain ⟨next, emits, shown⟩ := Option.bind_eq_some_iff.mp shown
    split at shown
    next dst out =>
      obtain ⟨⟨r, sent'⟩, received, outcome⟩ := Option.bind_eq_some_iff.mp shown
      obtain ⟨rfl, rfl⟩ := Prod.mk.inj same
      simp only [Option.pure_def, Option.some.injEq, Passage.mk.injEq, decide_eq_true_eq] at outcome
      obtain ⟨rfl, ⟨same, rfl⟩, head, handed, buffer⟩ := outcome
      obtain ⟨t, u, has, has', matching⟩ := matching_some same
      exact ⟨t, u, out, l, r, has, has', matching, ⟨0, _, here, step, emits⟩, ⟨sent', received⟩, head,
        handed, buffer⟩
    next => cases shown
  next => cases shown

/-- The cell of cid 5 begins with a 5. -/
theorem letter_delivered : ∃ p l r out, Run (Pair.Step peers) (Pair.start snow peers) (meeting (letter 5)) p ∧
    (p.link false).Encrypts (peers.addr true) (letter 5) out l ∧
    (p.link true).Delivers (peers.addr false) out (letter 5) r := by
  have computed : ((meeting (letter 5)).foldlM (Pair.step peers) (Pair.start snow peers)).bind passage =
      some ⟨.encrypt (peers.addr true) (letter 5), true, some 5, [(peers.addr false, letter 5)], true⟩ := by
    decide +kernel
  obtain ⟨p, run, shown⟩ := met computed
  obtain ⟨t, u, out, l, r, has, has', matching, encrypts, ⟨sent, received⟩, head, -, -⟩ := passage_some shown
  refine ⟨p, l, r, out, run, encrypts, ?_⟩
  refine (Link.delivers_iff counters_lawful _ l _ r _ _ _ out encrypts t u has has' matching (24 : UInt8) sent received).mpr ?_
  rw [head]
  decide

/-- That of cid 127 begins like a handshake fragment. -/
theorem lookalike_swallowed : ∃ p t u l r out sent,
    Run (Pair.Step peers) (Pair.start snow peers) (meeting (letter 127)) p ∧
    (p.link false).sessions.get (peers.addr true) = some t ∧ (p.link true).sessions.get (peers.addr false) = some u ∧
    counters.Matching t u ∧ (p.link false).Encrypts (peers.addr true) (letter 127) out l ∧
    (p.link true).step (.receive (peers.addr false) out (24 : UInt8)) = some (r, sent) ∧
    ¬ (p.link true).Delivers (peers.addr false) out (letter 127) r ∧
    r.tx = [] ∧ (r.hsBuf.get (peers.addr false)).isSome := by
  have computed : ((meeting (letter 127)).foldlM (Pair.step peers) (Pair.start snow peers)).bind passage =
      some ⟨.encrypt (peers.addr true) (letter 127), true, some 0x7F, [], false⟩ := by
    decide +kernel
  obtain ⟨p, run, shown⟩ := met computed
  obtain ⟨t, u, out, l, r, has, has', matching, encrypts, ⟨sent, received⟩, -, none, buffer⟩ := passage_some shown
  refine ⟨p, t, u, l, r, out, sent, run, has, has', matching, encrypts, received, fun delivers => ?_, none, ?_⟩
  · have handed := delivers.tx
    rw [none] at handed
    exact absurd handed.symm (List.append_ne_nil_of_right_ne_nil _ (List.cons_ne_nil _ _))
  · rw [Option.isSome_iff_ne_none]
    intro gone
    rw [gone] at buffer
    cases buffer

end CountedNoise
end Nbf.Net

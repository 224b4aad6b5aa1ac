import Nbf.Net.Tampering

/-! The onion as a whole: what is sealed layer by layer is opened layer by layer,
and what fits at the origin fits on every link. -/

set_option autoImplicit false

namespace Nbf.Net

open Nbf.Library Nbf.Crypto

variable {C : Crates}

def peel (C : Crates) (keys : List (Octets 32)) (tag : Octets 16) (seq : UInt32) (onion : List UInt8) :
    Checked NetError (List UInt8) :=
  keys.foldlM (fun payload key => openOnion C key tag seq payload) onion

/-- The hops with these keys seal a reply one after the other, the last hop of the route first. -/
def wrap (C : Crates) (keys : List (Octets 32)) (tag : Octets 16) (seq : UInt32) (msg : List UInt8) : List UInt8 :=
  keys.reverse.foldl (fun payload key => sealBwd C key tag seq payload) msg

theorem wrap_eq_replyOnion (keys : List (Octets 32)) (tag : Octets 16) (seq : UInt32) (msg : List UInt8) :
    wrap C keys tag seq msg = replyOnion C keys tag seq msg := List.foldl_reverse

theorem sealOnionBwd_eq_replyOnion (keys : List (Octets 32)) (tag : Octets 16) (seq : UInt32) (msg : List UInt8) :
    sealOnionBwd C keys tag seq msg = replyOnion C keys tag seq msg := rfl

theorem openOnionBwd_eq (keys : List (Octets 32)) (tag : Octets 16) (seq : UInt32) (onion : List UInt8) :
    openOnionBwd C keys tag seq onion = openBwdAll C keys tag seq onion := by
  induction keys generalizing onion with
  | nil => rfl
  | cons key keys ih =>
    rw [openOnionBwd, openBwdAll, openBwd]
    exact congrArg _ (funext ih)

variable (laws : C.Lawful)
include laws

theorem peel_sealOnion (near far : List (Octets 32)) (tag : Octets 16) (seq : UInt32) (msg : List UInt8) :
    peel C near tag seq (sealOnion C (near ++ far) tag seq msg) = .ok (sealOnion C far tag seq msg) := by
  induction near with
  | nil => rfl
  | cons key near ih =>
    rw [peel, List.foldlM_cons, List.cons_append, openOnion_sealOnion laws, Checked.ok_bind]
    exact ih

theorem length_relayPayload_sealOnion (keys : List (Octets 32)) (tag : Octets 16) (seq : UInt32) (msg : List UInt8)
    (rcmd : RCmd) (stream : UInt16) :
    (relayPayload ⟨seq, rcmd, stream, sealOnion C keys tag seq msg⟩).length = 7 + (msg.length + 16 * keys.length) := by
  rw [length_relayPayload, length_sealOnion laws]

theorem length_relayPayload_wrap (keys : List (Octets 32)) (tag : Octets 16) (seq : UInt32) (msg : List UInt8)
    (rcmd : RCmd) (stream : UInt16) :
    (relayPayload ⟨seq, rcmd, stream, wrap C keys tag seq msg⟩).length = 7 + (msg.length + 16 * keys.length) := by
  rw [length_relayPayload, wrap_eq_replyOnion, length_replyOnion laws]

omit laws in
/-- Five layers and the longest message leave room for the seven bytes before the onion. -/
theorem layers_fit {layers len : Nat} (few : layers ≤ maxHops) (short : len ≤ msgMax) : 7 + (len + 16 * layers) ≤ cellData := by
  simp only [maxHops, msgMax, cellData, cellLen, cellHdr] at few short ⊢
  omega

theorem handleRelay_wrap {node : Node C} {cid : UInt32} {fwd bwd : List (Octets 32)} {tag : Octets 16} {next : HopLink}
    {streams : Table UInt16 StreamTx} (stored : node.circuits.get cid = some (.origin fwd bwd tag next streams))
    {stream : UInt16} {tx : StreamTx} (registered : streams.get stream = some tx) (src : SocketAddr) (flags : UInt8)
    (seq : UInt32) (rcmd : RCmd) (msg : List UInt8) :
    (node.handleRelay src ⟨cid, .relay, flags, relayPayload ⟨seq, rcmd, stream, wrap C bwd tag seq msg⟩⟩).2 =
      [.deliver tx msg] := by
  have accepted : node.accepts ⟨cid, .relay, flags, relayPayload ⟨seq, rcmd, stream, wrap C bwd tag seq msg⟩⟩ =
      some (seq, stream, msg) := by
    simp only [Node.accepts, parseRelay_relayPayload, stored, wrap_eq_replyOnion, openBwdAll_replyOnion laws]
  rw [Node.effects_of_accepts stored, accepted]
  simp only [registered]

/-- The onion both ways, for any keys and any message. The layers come off in the order of the route and the message
is left at the end; the hops seal a reply as `seal_onion_bwd` does, and `open_onion_bwd` and the origin undo it; a
message and a route within their limits fit in a cell on every link, both ways. -/
theorem onion_inverse (keys : List (Octets 32)) (tag : Octets 16) (seq : UInt32) (msg : List UInt8) :
    (∀ k ≤ keys.length, peel C (keys.take k) tag seq (sealOnion C keys tag seq msg) = .ok (sealOnion C (keys.drop k) tag seq msg) ∧
      (sealOnion C (keys.drop k) tag seq msg).length = msg.length + 16 * (keys.length - k)) ∧
    peel C keys tag seq (sealOnion C keys tag seq msg) = .ok msg ∧
    wrap C keys tag seq msg = sealOnionBwd C keys tag seq msg ∧
    openOnionBwd C keys tag seq (sealOnionBwd C keys tag seq msg) = .ok msg ∧
    openBwdAll C keys tag seq (sealOnionBwd C keys tag seq msg) = .ok msg ∧
    (∀ (node : Node C) (cid : UInt32) (fwd : List (Octets 32)) (next : HopLink) (streams : Table UInt16 StreamTx)
      (stream : UInt16) (tx : StreamTx) (src : SocketAddr) (flags : UInt8) (rcmd : RCmd),
      node.circuits.get cid = some (.origin fwd keys tag next streams) → streams.get stream = some tx →
      (node.handleRelay src ⟨cid, .relay, flags, relayPayload ⟨seq, rcmd, stream, sealOnionBwd C keys tag seq msg⟩⟩).2 =
        [.deliver tx msg]) ∧
    (keys.length ≤ maxHops → msg.length ≤ msgMax → ∀ k ≤ keys.length, ∀ (rcmd : RCmd) (stream : UInt16),
      (relayPayload ⟨seq, rcmd, stream, sealOnion C (keys.drop k) tag seq msg⟩).length ≤ cellData ∧
      (relayPayload ⟨seq, rcmd, stream, wrap C (keys.drop k) tag seq msg⟩).length ≤ cellData) := by
  have batch : wrap C keys tag seq msg = sealOnionBwd C keys tag seq msg :=
    (wrap_eq_replyOnion ..).trans (sealOnionBwd_eq_replyOnion ..).symm
  have opened : openBwdAll C keys tag seq (sealOnionBwd C keys tag seq msg) = .ok msg := by
    rw [sealOnionBwd_eq_replyOnion, openBwdAll_replyOnion laws]
  refine ⟨fun k within => ⟨?_, ?_⟩, ?_, batch, ?_, opened, ?_, ?_⟩
  · have split := peel_sealOnion laws (keys.take k) (keys.drop k) tag seq msg
    rwa [List.take_append_drop] at split
  · rw [length_sealOnion laws, List.length_drop]
  · have whole := peel_sealOnion laws keys [] tag seq msg
    rwa [List.append_nil] at whole
  · rw [openOnionBwd_eq, opened]
  · intro node cid fwd next streams stream tx src flags rcmd stored registered
    rw [← batch]
    exact handleRelay_wrap laws stored registered src flags seq rcmd msg
  · intro few short k within rcmd stream
    have fewer : (keys.drop k).length ≤ maxHops := by
      rw [List.length_drop]
      exact (Nat.sub_le _ _).trans few
    rw [length_relayPayload_sealOnion laws, length_relayPayload_wrap laws]
    exact ⟨layers_fit fewer short, layers_fit fewer short⟩

omit laws

namespace Transparent

open Nbf.Crypto.Transparent

/-- The reply of the echo circuit, as both hops have sealed it. -/
theorem echo_onion_inverse : openOnionBwd crates echoHandle.bwd echoHandle.tag 64
    (sealOnionBwd crates echoHandle.bwd echoHandle.tag 64 [104, 105]) = .ok [104, 105] :=
  (onion_inverse lawful echoHandle.bwd echoHandle.tag 64 [104, 105]).2.2.2.1

end Transparent
end Nbf.Net

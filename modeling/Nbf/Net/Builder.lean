import Nbf.Net.Relay

/-! The origin's side (`builder.rs`): building a circuit, sending on it, closing it. -/

set_option autoImplicit false

namespace Nbf.Net

open Nbf.Library Nbf.Crypto

structure CircuitHandle where
  cid : UInt32
  fwd : List (Octets 32)
  bwd : List (Octets 32)
  tag : Octets 16

/-- What a `build_circuit` call still holds while it waits for CREATED. -/
structure BuildTask where
  cid : UInt32
  built : BuiltHeader

variable {C : Crates}

/-- Resolve the route in order; the first failing lookup ends it. -/
def resolveRoute (lookup : Lookup) : List NodeId → Except NetError (List Descriptor)
  | [] => .ok []
  | id :: rest => do
    let d ← lookup id
    let descs ← resolveRoute lookup rest
    return d :: descs

namespace Node

/-- `build_circuit` up to the wait: resolve, draw the tag, build the header, send CREATE under a
new cid, register the oneshot `tx`. -/
def buildStart (node : Node C) (lookup : Lookup) (tx : OneshotTx) (route : List NodeId) :
    Node C × List Effect × Checked NetError BuildTask :=
  if route = [] ∨ maxHops < route.length then (node, [], .error (.badLength route.length)) else
  match resolveRoute lookup route with
  | .error err => (node, [], .error err)
  | .ok descs =>
    let (tag, rng) := C.fillBytes 16 node.rng
    let (built, rng) := buildHeader C descs tag rng
    let node := { node with rng }
    match built, descs with
    | .ok built, first :: _ =>
      let (cid, node) := node.newCid
      ({ node with pending := node.pending.insert cid tx },
        .ensurePeerLink built.firstAddr first.linkPub ::
          (fragment built.header).map fun frag => .sendCell built.firstAddr ⟨cid, .create, 0, frag⟩,
        .ok ⟨cid, built⟩)
    | .error err, _ => (node, [], .error (.crypto err))
    | _, _ => (node, [], .panic)

def buildFinish (node : Node C) (task : BuildTask) : Node C × CircuitHandle :=
  let { cid, built } := task
  let entry := .origin built.fwdKeys built.bwdKeys built.tag ⟨cid, built.firstAddr⟩ .empty
  ({ node with circuits := node.circuits.insert cid entry },
    ⟨cid, built.fwdKeys, built.bwdKeys, built.tag⟩)

/-- `build_circuit` after the wait, whether or not the oneshot was resolved in time. -/
def buildAwait (node : Node C) (task : BuildTask) (resolved : Bool) : Node C × Except NetError CircuitHandle :=
  if resolved then
    let (node, handle) := node.buildFinish task
    (node, .ok handle)
  else ({ node with pending := node.pending.remove task.cid }, .error .timeout)

def send (node : Node C) (handle : CircuitHandle) (stream : UInt16) (rcmd : RCmd) (msg : List UInt8) :
    Node C × List Effect × Except NetError Unit :=
  let seq := node.seqOrigin
  let node := { node with seqOrigin := node.seqOrigin + 1 }
  let onion := sealOnion C handle.fwd handle.tag seq msg
  let cell : Cell := ⟨handle.cid, .relay, 0, relayPayload ⟨seq, rcmd, stream, onion⟩⟩
  match node.circuits.get handle.cid with
  | some (.origin _ _ _ next _) => (node, [.sendCell next.peer cell], .ok ())
  | _ => (node, [], .error .noSession)

/-- `CircuitHandle::echo` up to the wait for the reply on stream 1, whose channel is `tx`. -/
def echo (node : Node C) (handle : CircuitHandle) (tx : StreamTx) (msg : List UInt8) :
    Node C × List Effect × Except NetError Unit :=
  if msgMax < msg.length then (node, [], .error (.badLength msg.length)) else
  (node.registerStream handle.cid 1 tx).send handle 1 .echo msg

def sendData (node : Node C) (handle : CircuitHandle) (msg : List UInt8) (stream : UInt16) :
    Node C × List Effect × Except NetError Unit :=
  if msgMax < msg.length then (node, [], .error (.badLength msg.length)) else
  node.send handle stream .data msg

def close (node : Node C) (handle : CircuitHandle) : Node C × List Effect :=
  match node.circuits.get handle.cid with
  | some (.origin _ _ _ next _) =>
    ({ node with circuits := node.circuits.remove handle.cid }, [.sendCell next.peer ⟨handle.cid, .destroy, 0, []⟩])
  | _ => (node, [])

end Node
end Nbf.Net

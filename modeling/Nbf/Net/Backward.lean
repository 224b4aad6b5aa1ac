import Nbf.Net.Onion
import Nbf.Net.Reassembly

/-! What comes back along a circuit: the length of what a node sends on, and the
nonces it seals under.

A forward cell gets shorter at a relay and its sequence number has to go up. A
backward cell is sealed and sent on as it comes.
-/

set_option autoImplicit false

namespace Nbf.Net

open Nbf.Library Nbf.Crypto

variable {C : Crates}

def CircuitEntry.Returns (entry : CircuitEntry) (src : SocketAddr) : Prop :=
  match entry with
  | .relay _ _ _ prev next _ => src ≠ prev.peer ∧ src = next.peer
  | _ => False

theorem Cell.decode_fits {buf : List UInt8} {cell : Cell} (decoded : decode buf = .ok cell) :
    cell.payload.length ≤ cellData := by
  unfold decode at decoded
  split at decoded
  · cases decoded
  obtain ⟨lenBytes, -, rest⟩ := Checked.bind_eq_ok.mp decoded
  dsimp only at rest
  split at rest
  · cases rest
  next fits =>
    obtain ⟨cid, -, rest⟩ := Checked.bind_eq_ok.mp rest
    obtain ⟨cmdByte, -, rest⟩ := Checked.bind_eq_ok.mp rest
    obtain ⟨cmd, -, rest⟩ := Checked.bind_eq_ok.mp rest
    obtain ⟨flags, -, rest⟩ := Checked.bind_eq_ok.mp rest
    obtain ⟨payload, cut, rest⟩ := Checked.bind_eq_ok.mp rest
    rw [← Checked.ok.inj rest]
    unfold Checked.slice at cut
    split at cut
    · rw [← Checked.ok.inj cut]
      simp only [List.length_take, List.length_drop]
      omega
    · cases cut

theorem parseRelay_length {payload : List UInt8} {msg : RelayMsg} (parsed : parseRelay payload = .ok msg) :
    payload.length = 7 + msg.onion.length := by
  unfold parseRelay at parsed
  split at parsed
  · cases parsed
  next long =>
    obtain ⟨seq, -, rest⟩ := Checked.bind_eq_ok.mp parsed
    obtain ⟨rcmdU8, -, rest⟩ := Checked.bind_eq_ok.mp rest
    obtain ⟨rcmd, -, rest⟩ := Checked.bind_eq_ok.mp rest
    obtain ⟨stream, -, rest⟩ := Checked.bind_eq_ok.mp rest
    obtain ⟨onion, cut, rest⟩ := Checked.bind_eq_ok.mp rest
    rw [← Checked.ok.inj rest]
    unfold Checked.sliceFrom at cut
    split at cut
    · rw [← Checked.ok.inj cut, List.length_drop]
      omega
    · cases cut

/-! ## Lengths -/

/-- A relay adds a layer of 16 bytes to what comes back; anything else that a RELAY cell makes a
node send is no longer than the cell. -/
theorem relayDecide_length (laws : C.Lawful) (shorter : C.OpensShorter) {entry : CircuitEntry} {src dst : SocketAddr}
    {msg : RelayMsg} {out : Cell} (sent : .sendCell dst out ∈ (relayDecide C entry src msg).effects) :
    entry.Returns src ∧ out.payload.length = 7 + msg.onion.length + 16 ∨
      ¬ entry.Returns src ∧ out.payload.length ≤ 7 + msg.onion.length := by
  cases entry with
  | origin fwd bwd tag next streams =>
    simp only [relayDecide] at sent
    split at sent
    · split at sent <;> simp [Decision.effects] at sent
    · simp [Decision.effects] at sent
  | relay tag kFwd kBwd prev next lastFwd =>
    simp only [relayDecide] at sent
    split at sent
    next forward =>
      split at sent
      · simp [Decision.effects] at sent
      split at sent
      next inner opened =>
        simp only [Decision.effects, Option.toList_some, List.map_cons, List.map_nil, List.mem_singleton,
          Effect.sendCell.injEq] at sent
        obtain ⟨rfl, rfl⟩ := sent
        have size := length_openOnion shorter opened
        refine .inr ⟨fun returns => returns.1 forward, ?_⟩
        rw [length_relayPayload]
        dsimp only
        omega
      · simp [Decision.effects] at sent
    next other =>
      split at sent
      next back =>
        simp only [Decision.effects, List.mem_singleton, Effect.sendCell.injEq] at sent
        obtain ⟨rfl, rfl⟩ := sent
        refine .inl ⟨⟨other, back⟩, ?_⟩
        rw [length_relayPayload, length_sealBwd laws, Nat.add_assoc]
      · simp [Decision.effects] at sent
  | terminal tag kFwd kBwd prev lastFwd =>
    refine .inr ⟨id, ?_⟩
    simp only [relayDecide] at sent
    split at sent
    · simp [Decision.effects] at sent
    split at sent
    next inner opened =>
      split at sent
      · simp only [Decision.effects, Option.toList_some, List.map_cons, List.map_nil, List.mem_singleton,
          Effect.sendCell.injEq] at sent
        obtain ⟨rfl, rfl⟩ := sent
        have size := length_openOnion shorter opened
        rw [length_relayPayload, length_sealBwd laws]
        omega
      · simp [Decision.effects] at sent
      · simp [Decision.effects] at sent
    · simp [Decision.effects] at sent

theorem relayDecide_returns {entry : CircuitEntry} {src : SocketAddr} (returns : entry.Returns src) (msg : RelayMsg) :
    ∃ dst out, .sendCell dst out ∈ (relayDecide C entry src msg).effects := by
  cases entry with
  | relay tag kFwd kBwd prev next lastFwd =>
    refine ⟨prev.peer, ⟨prev.cid, .relay, 0, relayPayload { msg with onion := sealBwd C kBwd tag msg.seq msg.onion }⟩, ?_⟩
    simp only [relayDecide, if_neg returns.1, if_pos returns.2, Decision.effects]
    exact List.mem_singleton_self _
  | origin | terminal => cases returns

theorem Node.handleCreate_fits {node : Node C} {lookup : Lookup} {src dst : SocketAddr} {cell out : Cell}
    (sent : .sendCell dst out ∈ (node.handleCreate lookup src cell).2) : out.payload.length ≤ cellData := by
  unfold handleCreate at sent
  generalize node.gather cell = gathered at sent
  obtain ⟨full, frags⟩ := gathered
  cases full with
  | none => cases sent
  | some header =>
    dsimp only at sent
    split at sent
    next outcome _ =>
      cases outcome with
      | terminal =>
        simp only [completeCreate, List.mem_singleton, Effect.sendCell.injEq] at sent
        rw [sent.2]
        exact Nat.zero_le _
      | relay tag kFwd kBwd nextId nextAddr newHeader =>
        simp only [completeCreate, List.mem_cons, reduceCtorEq, false_or, List.mem_map, Effect.sendCell.injEq] at sent
        obtain ⟨frag, member, -, rfl⟩ := sent
        exact length_fragment_le newHeader frag member
    · cases sent

theorem Node.handleCreated_fits {node : Node C} {src dst : SocketAddr} {cell out : Cell}
    (sent : .sendCell dst out ∈ (node.handleCreated src cell).2) : out.payload.length ≤ cellData := by
  unfold handleCreated at sent
  split at sent
  · simp at sent
  split at sent
  · simp only [List.mem_singleton, Effect.sendCell.injEq] at sent
    rw [sent.2]
    exact Nat.zero_le _
  · cases sent

theorem Node.handleDestroy_fits {node : Node C} {src dst : SocketAddr} {cell out : Cell}
    (sent : .sendCell dst out ∈ (node.handleDestroy src cell).2) : out.payload.length ≤ cellData := by
  unfold handleDestroy at sent
  dsimp only at sent
  split at sent
  · simp only [List.mem_singleton, Effect.sendCell.injEq] at sent
    rw [sent.2]
    exact Nat.zero_le _
  · simp only [List.mem_singleton, Effect.sendCell.injEq] at sent
    rw [sent.2]
    exact Nat.zero_le _
  · cases sent

/-- More than that, and the task that handles the cell panics. -/
theorem Node.handleCell_panics (laws : C.Lawful) (shorter : C.OpensShorter) (node : Node C) (lookup : Lookup) {src : SocketAddr}
    {cell : Cell} {msg : RelayMsg} {entry : CircuitEntry} (relay : cell.cmd = .relay) (parsed : parseRelay cell.payload = .ok msg)
    (stored : node.circuits.get cell.cid = some entry) (returns : entry.Returns src)
    (long : ¬ cell.payload.length ≤ cellData - 16) :
    ∃ dst out, .sendCell dst out ∈ (node.handleCell lookup src cell).2 ∧ out.encode = .panic := by
  obtain ⟨dst, out, sent⟩ := relayDecide_returns (C := C) returns msg
  refine ⟨dst, out, by simpa only [handleCell, relay, handleRelay, parsed, stored] using sent, dif_neg fun fits => ?_⟩
  rcases relayDecide_length laws shorter sent with ⟨-, size⟩ | ⟨other, -⟩
  · have whole := parseRelay_length parsed
    omega
  · exact other returns

namespace Running

/-- Every cell that a cell off the network makes the node send can be encoded. -/
def Fitting (r : Running C) (event : Event) (_ : Running C) : Prop :=
  match event with
  | .recv lookup src cell => ∀ buf, Cell.decode buf = .ok cell →
    ∀ dst out, .sendCell dst out ∈ (r.node.handleCell lookup src cell).2 → out.payload.length ≤ cellData
  | _ => True

/-- What a relay gets back from its next hop leaves room for one more layer. -/
def LeavesRoom (r : Running C) (event : Event) (_ : Running C) : Prop :=
  match event with
  | .recv _ src cell => cell.cmd = .relay → ∀ msg entry, parseRelay cell.payload = .ok msg →
    r.node.circuits.get cell.cid = some entry → entry.Returns src →
    ∀ buf, Cell.decode buf = .ok cell → cell.payload.length ≤ cellData - 16
  | _ => True

theorem fitting_step_iff (laws : C.Lawful) (shorter : C.OpensShorter) (r : Running C) (event : Event) (r' : Running C) :
    Fitting r event r' ↔ LeavesRoom r event r' := by
  cases event with
  | recv lookup src cell =>
    simp only [Fitting, LeavesRoom, Node.handleCell]
    cases cell.cmd with
    | create => exact iff_of_true (fun _ _ _ _ sent => Node.handleCreate_fits sent) (by simp)
    | created => exact iff_of_true (fun _ _ _ _ sent => Node.handleCreated_fits sent) (by simp)
    | destroy => exact iff_of_true (fun _ _ _ _ sent => Node.handleDestroy_fits sent) (by simp)
    | padding => simp
    | relay =>
      simp only [true_imp_iff, Node.handleRelay]
      constructor
      · intro fitting msg entry parsed stored returns buf decoded
        obtain ⟨dst, out, sent⟩ := relayDecide_returns (C := C) returns msg
        have fits := fitting buf decoded dst out (by simpa only [parsed, stored] using sent)
        rcases relayDecide_length laws shorter sent with ⟨-, size⟩ | ⟨other, -⟩
        · have whole := parseRelay_length parsed
          omega
        · exact absurd returns other
      · intro room buf decoded dst out sent
        have fits := Cell.decode_fits decoded
        split at sent
        next msg parsed =>
          have whole := parseRelay_length parsed
          split at sent
          · cases sent
          next entry stored =>
            rcases relayDecide_length laws shorter sent with ⟨returns, size⟩ | ⟨-, size⟩
            · have := room msg entry parsed stored returns buf decoded
              have : 16 ≤ cellData := by decide
              omega
            · omega
        · cases sent
  | _ => exact Iff.rfl

/-- The runs of a node in which no cell off the network makes it send a cell that cannot be encoded
are exactly those in which no relay gets back more than fits with one more layer. -/
theorem fitting_iff (laws : C.Lawful) (shorter : C.OpensShorter) (seed : C.Rng) (events : List Event) (r : Running C) :
    Run (Such Step Fitting) (Builds.spawn C seed) events r ↔ Run (Such Step LeavesRoom) (Builds.spawn C seed) events r :=
  Run.such_iff (fun _ => True) (fun _ _ _ _ _ => trivial) (fun r event r' _ _ => fitting_step_iff laws shorter r event r')
    trivial

end Running

/-! ## Nonces -/

structure SealCall where
  key : Octets 32
  nonce : Octets 12
  plaintext : List UInt8

/-- The call of `seal_bwd` that `relay::handle` makes on this entry. -/
def CircuitEntry.sealCall (C : Crates) (entry : CircuitEntry) (src : SocketAddr) (msg : RelayMsg) : Option SealCall :=
  match entry with
  | .origin .. => none
  | .relay tag _ kBwd prev next _ =>
    if src = prev.peer then none
    else if src = next.peer then some ⟨kBwd, relayNonce C tag 1 msg.seq, msg.onion⟩
    else none
  | .terminal tag kFwd kBwd prev lastFwd =>
    if src ≠ prev.peer ∨ msg.seq ≤ lastFwd then none else
    match openOnion C kFwd tag msg.seq msg.onion with
    | .ok inner =>
      match msg.rcmd with
      | .echo => some ⟨kBwd, relayNonce C tag 1 msg.seq, inner⟩
      | _ => none
    | _ => none

theorem CircuitEntry.sealCall_sent {entry : CircuitEntry} {src : SocketAddr} {msg : RelayMsg} {call : SealCall}
    (called : entry.sealCall C src msg = some call) :
    ∃ dst cid, (relayDecide C entry src msg).effects =
      [.sendCell dst ⟨cid, .relay, 0, relayPayload { msg with onion := aeadSeal C call.key call.nonce call.plaintext }⟩] := by
  cases entry with
  | origin => cases called
  | relay tag kFwd kBwd prev next lastFwd =>
    simp only [sealCall] at called
    split at called
    · cases called
    next other =>
      split at called
      next back =>
        cases called
        exact ⟨prev.peer, prev.cid, by simp only [relayDecide, if_neg other, if_pos back]; rfl⟩
      · cases called
  | terminal tag kFwd kBwd prev lastFwd =>
    simp only [sealCall] at called
    split at called
    · cases called
    next passes =>
      split at called
      next inner opened =>
        split at called
        next echo =>
          cases called
          exact ⟨prev.peer, prev.cid, by simp only [relayDecide, if_neg passes, opened, echo]; rfl⟩
        · cases called
      · cases called

namespace Node

def sealCall (node : Node C) (src : SocketAddr) (cell : Cell) : Option SealCall :=
  match node.relays src cell with
  | some (msg, entry, _) => entry.sealCall C src msg
  | none => none

end Node

section

variable {tag : Octets 16} {kFwd kBwd : Octets 32} {prev next : HopLink} {cid : UInt32}

end

namespace Transparent

open Nbf.Crypto.Transparent

def reply (seq : UInt32) (onion : List UInt8) : SocketAddr × Cell :=
  (localhost 9101, ⟨1, .relay, 0, relayPayload ⟨seq, .echo, 1, onion⟩⟩)

theorem short_reply_fits : ∃ lookup events r, Run (Such Running.Step Running.Fitting) (.spawn crates (1 : UInt8))
    (events ++ [.recv lookup (localhost 9101) (reply 100 [1]).2]) r := by
  obtain ⟨events, r, kFwd, kBwd, run, creates, stored⟩ := pair_relay (localhost 9200)
  refine ⟨fun _ => .error .timeout, events, _, (Running.fitting_iff lawful opensShorter (1 : UInt8) _ _).mpr (.snoc
    (run.such_of fun event member s t => ?_) ⟨.recv r _ _ _, fun _ _ _ _ _ _ _ _ => ?_⟩)⟩
  · obtain ⟨lookup, cell, rfl, create⟩ := creates event member
    intro relay
    rw [create] at relay
    cases relay
  · rw [reply, length_relayPayload]
    decide

/-- A reply that fills its cell leaves no room for the relay's layer: encoding what it sends panics. -/
theorem full_reply_panics : ∃ lookup events r r',
    Run Running.Step (.spawn crates (1 : UInt8)) events r ∧
      Running.Step r (.recv lookup (localhost 9101) (reply 100 (.replicate 1265 0)).2) r' ∧
      (∃ buf, Cell.decode buf = .ok (reply 100 (.replicate 1265 0)).2) ∧
      (∃ dst out, .sendCell dst out ∈ (r.node.handleCell lookup (localhost 9101) (reply 100 (.replicate 1265 0)).2).2 ∧
        out.encode = .panic) ∧
      ¬ Running.Fitting r (.recv lookup (localhost 9101) (reply 100 (.replicate 1265 0)).2) r' := by
  obtain ⟨events, r, kFwd, kBwd, run, -, stored⟩ := pair_relay (localhost 9200)
  have size : (reply 100 (.replicate 1265 0)).2.payload.length = 1272 := by
    rw [reply, length_relayPayload, List.length_replicate]
  obtain ⟨buf, encoded⟩ : ∃ buf, (reply 100 (.replicate 1265 0)).2.encode = .ok buf :=
    Cell.encode_ok (by rw [size]; decide)
  have decoded := Cell.decode_encode encoded
  let lookup : Lookup := fun _ => .error .timeout
  have relay : (reply 100 (.replicate 1265 0)).2.cmd = .relay := rfl
  obtain ⟨dst, out, sent, panics⟩ := r.node.handleCell_panics lawful opensShorter lookup relay (parseRelay_relayPayload _) stored
    ⟨localhost_ne (by decide), rfl⟩ (by rw [size]; decide)
  refine ⟨lookup, events, r, _, run, .recv r lookup _ _, ⟨_, decoded⟩, ⟨dst, out, sent, panics⟩, fun fitting => ?_⟩
  have fits := fitting _ decoded dst out sent
  obtain ⟨buf', encoded'⟩ := Cell.encode_ok fits
  rw [panics] at encoded'
  cases encoded'

end Transparent
end Nbf.Net

import Nbf.Net.Activity
import Nbf.Net.Establishment

/-! DESTROY and CREATED as the network sees them: what their arrival changes, and
what is sent on.
-/

set_option autoImplicit false

namespace Nbf.Net

open Nbf.Library Nbf.Crypto

def CircuitEntry.prev? : CircuitEntry → Option HopLink
  | .origin .. => none
  | .relay _ _ _ prev _ _ => some prev
  | .terminal _ _ _ prev _ => some prev

def destroyPacket (src dst : SocketAddr) (cid : UInt32) : Packet := ⟨src, dst, ⟨cid, .destroy, 0, []⟩⟩

theorem packetsOf_destroy (src dst : SocketAddr) (cid : UInt32) :
    packetsOf src [.sendCell dst ⟨cid, .destroy, 0, []⟩] = [destroyPacket src dst cid] :=
  packetsOf_send _ _ _ _ (Nat.zero_le _)

variable {C : Crates}

namespace Network

theorem entryAt_update (net : Network C) (addr : SocketAddr) (node : Node C) (effects : List Effect) (wire : List Packet)
    (other : SocketAddr) (cid : UInt32) : (net.update addr node effects wire).entryAt other cid =
      if other = addr then node.circuits.get cid else net.entryAt other cid := by
  split
  next here =>
    have stored : (net.update addr node effects wire).nodes.get other = some node := here ▸ Table.get_insert_self ..
    exact entryAt_of_get stored cid
  next apart =>
    have same : (net.update addr node effects wire).nodes.get other = net.nodes.get other := Table.get_insert_of_ne _ _ apart
    rw [entryAt, same]
    rfl

def destroyed (addr : SocketAddr) (entry : Option CircuitEntry) : List Packet :=
  (entry.bind CircuitEntry.prev?).toList.map fun prev => destroyPacket addr prev.peer prev.cid

theorem mem_destroyed {addr : SocketAddr} {entry : Option CircuitEntry} {q : Packet} (member : q ∈ destroyed addr entry) :
    ∃ prev, entry.bind CircuitEntry.prev? = some prev ∧ q = destroyPacket addr prev.peer prev.cid := by
  obtain ⟨prev, here, same⟩ := List.mem_map.mp member
  exact ⟨prev, Option.mem_toList.mp here, same.symm⟩

theorem destroyed_length (addr : SocketAddr) (entry : Option CircuitEntry) :
    (destroyed addr entry).length ≤ entry.isSome.toNat := by
  rw [destroyed, List.length_map]
  cases entry with
  | none => rfl
  | some entry => cases entry <;> simp [CircuitEntry.prev?]

theorem receive_destroy (net : Network C) (lookup : Lookup) {p : Packet} (cmd : p.cell.cmd = .destroy) (rest : List Packet) :
    (net.receive lookup p rest).wire = rest ++ destroyed p.dst (net.entryAt p.dst p.cell.cid) ∧
      ∀ addr cid, (net.receive lookup p rest).entryAt addr cid =
        if (addr, cid) = (p.dst, p.cell.cid) then none else net.entryAt addr cid := by
  cases present : net.nodes.get p.dst with
  | none =>
    have nothing (cid : UInt32) : net.entryAt p.dst cid = none := by rw [entryAt, present, Option.bind_none]
    simp only [receive, present, nothing, destroyed, Option.bind_none, Option.toList_none, List.map_nil, List.append_nil, true_and]
    intro addr cid
    split
    next here =>
      obtain ⟨rfl, rfl⟩ := Prod.mk.inj here
      exact nothing p.cell.cid
    next => rfl
  | some node =>
    have handled : node.handleCell lookup p.src p.cell = node.handleDestroy p.src p.cell := by
      rw [Node.handleCell, cmd]
    have circuits := node.handleDestroy_circuits p.src p.cell
    have effects : packetsOf p.dst (node.handleDestroy p.src p.cell).2 = destroyed p.dst (node.circuits.get p.cell.cid) := by
      unfold Node.handleDestroy
      cases node.circuits.get p.cell.cid with
      | none => rfl
      | some entry =>
        cases entry with
        | origin => rfl
        | relay => exact packetsOf_destroy _ _ _
        | terminal => exact packetsOf_destroy _ _ _
    simp only [receive, present, handled]
    refine ⟨by rw [entryAt_of_get present, ← effects]; rfl, fun addr cid => ?_⟩
    rw [entryAt_update, circuits, Table.get_remove]
    by_cases here : addr = p.dst
    · rw [here, entryAt_of_get present]
      simp
    · simp [here]

theorem step_destroys {net net' : Network C} {p : Packet} (destroys : ∀ q ∈ net.wire, q.cell.cmd = .destroy)
    (step : Step net p net') : p ∈ net.wire ∧ (∀ q ∈ net'.wire, q.cell.cmd = .destroy) ∧
      (∀ addr cid, net'.entryAt addr cid = if (addr, cid) = (p.dst, p.cell.cid) then none else net.entryAt addr cid) ∧
      ∃ rest, rest ⊆ net.wire ∧ net.wire.length = rest.length + 1 ∧
        net'.wire = rest ++ destroyed p.dst (net.entryAt p.dst p.cell.cid) := by
  cases step with
  | @deliver before after lookup wire first =>
    have flying : p ∈ net.wire := by rw [wire]; simp
    have old : before ++ after ⊆ net.wire := by
      rw [wire]
      exact (List.Sublist.append_left (List.sublist_cons_self p after) before).subset
    obtain ⟨sent, taken⟩ := net.receive_destroy lookup (destroys p flying) (before ++ after)
    refine ⟨flying, fun q member => ?_, taken, before ++ after, old, by simp [wire, Nat.add_assoc], sent⟩
    rw [sent] at member
    rcases List.mem_append.mp member with earlier | now
    · exact destroys q (old earlier)
    · obtain ⟨prev, -, rfl⟩ := mem_destroyed now
      rfl

end Network
end Nbf.Net

import Nbf.Library.Run
import Nbf.Net.Builder

/-! Nodes joined by links that lose nothing, duplicate nothing and keep order.

Any cell in flight that no earlier cell of the same link precedes may arrive next,
so cells of different links overtake each other freely. A cell is handled when it
arrives, one handler after another, so those of one link are handled in the order in
which they were sent; in `Nbf.Net.Tasks` and `Nbf.Net.Station` handlers and sends
overtake each other. A lookup a handler makes may answer anything.
-/

set_option autoImplicit false

namespace Nbf.Net

open Nbf.Library Nbf.Crypto

structure Packet where
  src : SocketAddr
  dst : SocketAddr
  cell : Cell
  deriving DecidableEq

structure Network (C : Crates) where
  nodes : Table SocketAddr (Node C)
  wire : List Packet
  /-- Oneshots resolved and stream data delivered so far, with the node they belong to. -/
  notices : List (SocketAddr × Effect)

/-- The cells a node's effects put on the wire: those whose encoding does not panic. -/
def packetsOf (src : SocketAddr) (effects : List Effect) : List Packet :=
  effects.filterMap fun
    | .sendCell dst cell => match cell.encode with
      | .ok _ => some ⟨src, dst, cell⟩
      | _ => none
    | _ => none

@[simp] theorem packetsOf_nil (src : SocketAddr) : packetsOf src [] = [] := rfl

def noticesOf (addr : SocketAddr) (effects : List Effect) : List (SocketAddr × Effect) :=
  effects.filterMap fun
    | .resolve tx => some (addr, .resolve tx)
    | .deliver tx data => some (addr, .deliver tx data)
    | _ => none

@[simp] theorem noticesOf_nil (addr : SocketAddr) : noticesOf addr [] = [] := rfl

theorem packetsOf_send (src dst : SocketAddr) (cell : Cell) (effects : List Effect) (fits : cell.payload.length ≤ cellData) :
    packetsOf src (.sendCell dst cell :: effects) = ⟨src, dst, cell⟩ :: packetsOf src effects := by
  obtain ⟨buf, encoded⟩ := Cell.encode_ok fits
  simp only [packetsOf, List.filterMap_cons, encoded]

variable {C : Crates}

namespace Network

def update (net : Network C) (addr : SocketAddr) (node : Node C) (effects : List Effect) (wire : List Packet) : Network C :=
  { nodes := net.nodes.insert addr node, wire := wire ++ packetsOf addr effects,
    notices := net.notices ++ noticesOf addr effects }

def receive (net : Network C) (lookup : Lookup) (p : Packet) (rest : List Packet) : Network C :=
  match net.nodes.get p.dst with
  | none => { net with wire := rest }
  | some node =>
    let (node, effects) := node.handleCell lookup p.src p.cell
    net.update p.dst node effects rest

inductive Step : Network C → Packet → Network C → Prop where
  | deliver {net : Network C} {p : Packet} {before after : List Packet} (lookup : Lookup) :
      net.wire = before ++ p :: after → (∀ q ∈ before, ¬ (q.src = p.src ∧ q.dst = p.dst)) →
      Step net p (net.receive lookup p (before ++ after))

theorem step_single {net net' : Network C} {p q : Packet} {rest : List Packet} (wire : net.wire = p :: rest)
    (single : ∀ r ∈ rest, r.src = p.src ∧ r.dst = p.dst) (step : Step net q net') :
    ∃ lookup, net' = net.receive lookup p rest := by
  cases step with
  | @deliver before after lookup split first =>
    cases before with
    | nil =>
      rw [wire, List.nil_append, List.cons.injEq] at split
      obtain ⟨rfl, rfl⟩ := split
      exact ⟨lookup, rfl⟩
    | cons b before =>
      rw [wire, List.cons_append, List.cons.injEq] at split
      obtain ⟨rfl, rfl⟩ := split
      obtain ⟨src, dst⟩ := single q (by simp)
      exact absurd ⟨src.symm, dst.symm⟩ (first p List.mem_cons_self)

theorem forced_receive {net mid last : Network C} {p : Packet} {rest : List Packet} (wire : net.wire = p :: rest)
    (single : ∀ r ∈ rest, r.src = p.src ∧ r.dst = p.dst) (result : ∀ lookup, net.receive lookup p rest = mid)
    (path : Forced Step mid last) : Forced Step net last := by
  have first : Step net p mid := by
    have split : net.wire = [] ++ p :: rest := wire
    have delivered := Step.deliver (fun _ => .error .timeout) split (by simp)
    rwa [List.nil_append, result] at delivered
  refine .next first (fun q other step => ?_) path
  obtain ⟨lookup, rfl⟩ := step_single wire single step
  exact result lookup

theorem notices_grow {net net' : Network C} {p : Packet} {notice : SocketAddr × Effect} (before : notice ∈ net.notices)
    (step : Step net p net') : notice ∈ net'.notices := by
  cases step with
  | deliver lookup _ _ =>
    rw [receive]
    split
    · exact before
    · exact List.mem_append_left _ before

theorem quiet {net net' : Network C} {p : Packet} (empty : net.wire = []) : ¬ Step net p net' := by
  intro step
  cases step with
  | deliver lookup split _ => simp [empty] at split

end Network
end Nbf.Net

import Nbf.Net.Activity
import Nbf.Net.Circuit

/-! Nodes that build circuits through each other.

Any node may start a build at any time, through any route; cells arrive in every
order the links allow, and a wait ends by its oneshot or by the timeout.
-/

set_option autoImplicit false

namespace Nbf.Net

open Nbf.Library Nbf.Crypto

structure World (C : Crates) where
  net : Network C
  /-- The `build_circuit` calls that wait, with their nodes and oneshots. -/
  waiting : List (SocketAddr × OneshotTx × BuildTask)
  nextTx : OneshotTx

variable {C : Crates}

namespace World

inductive Event where
  | deliver (p : Packet)
  | build (addr : SocketAddr) (lookup : Lookup) (route : List NodeId)
  /-- The wait of a build ends, by its oneshot or by the timeout. -/
  | await (addr : SocketAddr) (tx : OneshotTx) (task : BuildTask)

def build (w : World C) (addr : SocketAddr) (lookup : Lookup) (route : List NodeId) : World C :=
  match w.net.nodes.get addr with
  | none => w
  | some node =>
    match node.buildStart lookup w.nextTx route with
    | (node, effects, .ok task) =>
      { net := w.net.update addr node effects w.net.wire, waiting := (addr, w.nextTx, task) :: w.waiting,
        nextTx := w.nextTx + 1 }
    | (node, effects, _) => { w with net := w.net.update addr node effects w.net.wire }

def await (w : World C) (addr : SocketAddr) (tx : OneshotTx) (task : BuildTask) : World C :=
  match w.net.nodes.get addr with
  | none => w
  | some node =>
    let resolved := w.net.notices.contains (addr, .resolve tx)
    { w with net := w.net.update addr (node.buildAwait task resolved).1 [] w.net.wire,
             waiting := w.waiting.filter fun other => other.2.1 ≠ tx }

inductive Step : World C → Event → World C → Prop where
  | deliver {w : World C} {p : Packet} {net' : Network C} : Network.Step w.net p net' → Step w (.deliver p) { w with net := net' }
  | build (w : World C) (addr : SocketAddr) (lookup : Lookup) (route : List NodeId) :
      Step w (.build addr lookup route) (w.build addr lookup route)
  | await {w : World C} {addr : SocketAddr} {tx : OneshotTx} {task : BuildTask} : (addr, tx, task) ∈ w.waiting →
      Step w (.await addr tx task) (w.await addr tx task)

def Fresh (w : World C) : Prop := ∀ addr node, w.net.nodes.get addr = some node → node.circuits = .empty

end World

/-! ## What is stored is finite -/

def Network.Listed (net : Network C) (places : List (SocketAddr × UInt32)) : Prop :=
  ∀ addr cid, net.entryAt addr cid ≠ none → (addr, cid) ∈ places

theorem Change.fills_one {circuits circuits' : Table UInt32 CircuitEntry} (change : Change circuits circuits') :
    ∃ filled, ∀ cid, cid ≠ filled → circuits.get cid = none → circuits'.get cid = none := by
  cases change with
  | same => exact ⟨0, fun _ _ empty => empty⟩
  | store entry => exact ⟨entry.link.cid, fun cid other empty => by rw [Table.get_insert_of_ne _ _ other, empty]⟩
  | @renew filled _ _ _ _ => exact ⟨filled, fun cid other empty => by rw [Table.get_insert_of_ne _ _ other, empty]⟩
  | remove removed => exact ⟨removed, fun cid other empty => by rw [Table.get_remove_of_ne _ other, empty]⟩

theorem Network.Listed.update {net : Network C} {places : List (SocketAddr × UInt32)} (listed : net.Listed places)
    {addr : SocketAddr} {node node' : Node C} (present : net.nodes.get addr = some node)
    (change : Change node.circuits node'.circuits) (effects : List Effect) (wire : List Packet) :
    ∃ places', (net.update addr node' effects wire).Listed places' := by
  obtain ⟨filled, fills⟩ := change.fills_one
  refine ⟨(addr, filled) :: places, fun other cid stored => ?_⟩
  by_contra absent
  obtain ⟨apart, unlisted⟩ := not_or.mp (List.mem_cons.not.mp absent)
  have empty : net.entryAt other cid = none := by
    by_contra there
    exact unlisted (listed other cid there)
  refine stored ?_
  by_cases here : other = addr
  · subst here
    have fresh : cid ≠ filled := fun same => apart (by rw [same])
    rw [entryAt_of_get (Table.get_insert_self ..)]
    rw [entryAt_of_get present] at empty
    exact fills cid fresh empty
  · rw [entryAt, Network.update, Table.get_insert_of_ne _ _ here]
    exact empty

namespace World

theorem listed_step {w w' : World C} {event : Event} (listed : ∃ places, w.net.Listed places) (step : Step w event w') :
    ∃ places, w'.net.Listed places := by
  obtain ⟨places, listed⟩ := listed
  cases step with
  | @deliver p _ delivered =>
    cases delivered with
    | @deliver before after lookup wire first =>
      simp only [Network.receive]
      cases present : w.net.nodes.get p.dst with
      | none => exact ⟨places, listed⟩
      | some node => exact listed.update present (node.handleCell_change lookup p.src p.cell) _ _
  | build addr lookup route =>
    unfold World.build
    cases present : w.net.nodes.get addr with
    | none => exact ⟨places, listed⟩
    | some node =>
      have unchanged := node.buildStart_circuits lookup w.nextTx route
      dsimp only
      generalize node.buildStart lookup w.nextTx route = started at unchanged ⊢
      split <;> exact listed.update present (unchanged ▸ .same) _ _
  | @await addr tx task _ =>
    unfold World.await
    cases present : w.net.nodes.get addr with
    | none => exact ⟨places, listed⟩
    | some node =>
      refine listed.update present ?_ _ _
      cases w.net.notices.contains (addr, Effect.resolve tx) with
      | true => exact .store task.entry
      | false => exact .same

/-- In a world that builds circuits, only finitely many entries are ever stored. -/
theorem Fresh.listed {start w : World C} {events : List Event} (fresh : start.Fresh) (run : Run Step start events w) :
    ∃ places, w.net.Listed places := by
  refine run.invariant (fun w => ∃ places, w.net.Listed places) (fun _ _ _ => listed_step) ⟨[], fun addr cid stored => ?_⟩
  refine absurd ?_ stored
  cases present : start.net.nodes.get addr with
  | none => rw [Network.entryAt, present, Option.bind_none]
  | some node => rw [Network.entryAt_of_get present, fresh addr node present, Table.get_empty]

end World
end Nbf.Net

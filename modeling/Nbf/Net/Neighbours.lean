import Nbf.Net.Ownership

/-! Who can act on a circuit.

`relay::handle` of a hop asks where a cell comes from before it does anything. The
handlers of CREATED and DESTROY go by the cid alone.
-/

set_option autoImplicit false

namespace Nbf.Net

open Nbf.Library Nbf.Crypto

variable {C : Crates}

def CircuitEntry.Beside (entry : CircuitEntry) (src : SocketAddr) : Prop :=
  match entry with
  | .origin _ _ _ next _ => next.peer = src
  | .relay _ _ _ prev next _ => prev.peer = src ∨ next.peer = src
  | .terminal _ _ _ prev _ => prev.peer = src

def CircuitEntry.IsRelay : CircuitEntry → Prop
  | .relay .. => True
  | _ => False

structure Node.Unmoved (node node' : Node C) (effects : List Effect) : Prop where
  circuits : node'.circuits = node.circuits
  pending : node'.pending = node.pending
  silent : ∀ dst cell, .sendCell dst cell ∉ effects

theorem Node.handleCreated_unmoved_iff (node : Node C) (src : SocketAddr) (cell : Cell) :
    node.Unmoved (node.handleCreated src cell).1 (node.handleCreated src cell).2 ↔
      node.pending.get cell.cid = none ∧ ∀ entry, node.circuits.get cell.cid = some entry → ¬ entry.IsRelay := by
  unfold handleCreated
  cases waiting : node.pending.get cell.cid with
  | some tx =>
    -- The wait is taken out of `pending`.
    refine iff_of_false (fun unmoved => ?_) fun idle => by cases idle.1
    have kept := congrArg (Table.get · cell.cid) unmoved.pending
    rw [Table.get_remove_self, waiting] at kept
    cases kept
  | none =>
    cases stored : node.circuits.get cell.cid with
    | none => exact iff_of_true ⟨rfl, rfl, by simp⟩ ⟨rfl, fun entry here => by cases here⟩
    | some entry =>
      cases entry with
      | relay tag kFwd kBwd prev next lastFwd =>
        refine iff_of_false (fun unmoved => ?_) fun idle => idle.2 _ rfl trivial
        exact unmoved.silent _ _ List.mem_cons_self
      | origin | terminal =>
        refine iff_of_true ⟨rfl, rfl, by simp⟩ ⟨rfl, fun entry here relay => ?_⟩
        cases here
        exact relay

theorem Node.handleDestroy_unmoved_iff (node : Node C) (src : SocketAddr) (cell : Cell) :
    node.Unmoved (node.handleDestroy src cell).1 (node.handleDestroy src cell).2 ↔
      node.circuits.get cell.cid = none := by
  constructor
  · intro unmoved
    have kept := unmoved.circuits
    rw [node.handleDestroy_circuits] at kept
    rw [← kept, Table.get_remove_self]
  · intro free
    have same : node.circuits.remove cell.cid = node.circuits := by
      ext1 cid
      rw [Table.get_remove]
      split
      next here => rw [here, free]
      next => rfl
    unfold handleDestroy
    simp only [free, same]
    exact ⟨rfl, rfl, by simp⟩

namespace Running

/-- `src` is on no circuit that `cid` stands for, be it built or waited for. -/
def Outsider (r : Running C) (src : SocketAddr) (cid : UInt32) : Prop :=
  (∀ entry, r.node.circuits.get cid = some entry → ¬ entry.Beside src) ∧
    ∀ i tx task, r.node.pending.get cid = some tx →
      r.stages.get i = some (.waiting task tx) ∨ r.stages.get i = some (.expired task) ∧ task.cid = cid →
        task.built.firstAddr ≠ src

def Ignored (r : Running C) (event : Event) (_ : Running C) : Prop :=
  match event with
  | .recv lookup src cell => cell.cmd = .created ∨ cell.cmd = .destroy → r.Outsider src cell.cid →
    r.node.Unmoved (r.node.handleCell lookup src cell).1 (r.node.handleCell lookup src cell).2
  | _ => True

/-- An outsider's CREATED finds no wait and no Relay entry under its cid, an outsider's DESTROY no entry. -/
def Unknown (r : Running C) (event : Event) (_ : Running C) : Prop :=
  match event with
  | .recv _ src cell => r.Outsider src cell.cid → match cell.cmd with
    | .created => r.node.pending.get cell.cid = none ∧
      ∀ entry, r.node.circuits.get cell.cid = some entry → ¬ entry.IsRelay
    | .destroy => r.node.circuits.get cell.cid = none
    | _ => True
  | _ => True

theorem ignored_step_iff (r : Running C) (event : Event) (r' : Running C) :
    Ignored r event r' ↔ Unknown r event r' := by
  cases event with
  | recv lookup src cell =>
    simp only [Ignored, Unknown, Node.handleCell]
    cases cell.cmd with
    | created => simp only [true_or, true_imp_iff, Node.handleCreated_unmoved_iff]
    | destroy => simp only [or_true, true_imp_iff, Node.handleDestroy_unmoved_iff]
    | create | relay | padding => simp
  | _ => exact Iff.rfl

/-- The runs of a node in which no outsider ever does anything by CREATED or DESTROY are exactly
those in which no such cell hits a cid that is in use. -/
theorem ignored_iff (seed : C.Rng) (events : List Event) (r : Running C) :
    Run (Such Step Ignored) (Builds.spawn C seed) events r ↔ Run (Such Step Unknown) (Builds.spawn C seed) events r :=
  Run.such_iff (fun _ => True) (fun _ _ _ _ _ => trivial) (fun r event r' _ _ => ignored_step_iff r event r') trivial

end Running

namespace Transparent

open Nbf.Crypto.Transparent

/-- The circuit of one neighbour, and another neighbour that destroys it. -/
theorem outsider_destroys : ∃ lookup r r',
    Run Running.Step (.spawn crates (1 : UInt8)) [.recv lookup (localhost 9200) (soloCreate 1)] r ∧
      Running.Step r (.recv lookup (localhost 9300) ⟨1, .destroy, 0, []⟩) r' ∧
      ¬ Running.Ignored r (.recv lookup (localhost 9300) ⟨1, .destroy, 0, []⟩) r' := by
  obtain ⟨kFwd, kBwd, completes⟩ := soloCreate_completes
  let lookup : Lookup := fun _ => .error .timeout
  obtain ⟨r, first⟩ : ∃ r : Running crates,
    (Builds.spawn crates (1 : UInt8)).recv lookup (localhost 9200) (soloCreate 1) = r := ⟨_, rfl⟩
  obtain ⟨-, stored⟩ := recv_soloCreate completes _ spawn_soloReady lookup (localhost 9200)
  have idle := (Builds.spawn crates (1 : UInt8)).stages_recv lookup (localhost 9200) (soloCreate 1)
  rw [first] at stored idle
  refine ⟨lookup, r, _, first ▸ Run.single (.recv _ lookup _ _), .recv r lookup _ _, fun ignored => ?_⟩
  have apart : r.Outsider (localhost 9300) 1 := by
    refine ⟨fun entry here beside => ?_, fun i tx task _ waits => ?_⟩
    · rw [stored, Option.some.injEq] at here
      subst here
      exact localhost_ne (by decide) beside
    · rw [idle] at waits
      rcases waits with waits | ⟨waits, -⟩ <;> cases waits
  have unknown := (Running.ignored_step_iff r _ _).mp ignored
  have free : r.node.circuits.get 1 = none := unknown apart
  rw [stored] at free
  cases free

end Transparent
end Nbf.Net

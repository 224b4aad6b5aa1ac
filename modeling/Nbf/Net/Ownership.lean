import Nbf.Net.Activity
import Nbf.Net.Build

/-! Which circuits a CREATE or a finished build may touch.

Every neighbour numbers its circuits itself, and so does the node; all of them
share one map keyed by the number alone.
-/

set_option autoImplicit false

namespace Nbf.Net

open Nbf.Library Nbf.Crypto

variable {C : Crates}

/-- Every entry lies under the cid its own circuit's cells carry. -/
def Keyed (circuits : Table UInt32 CircuitEntry) : Prop :=
  ∀ cid entry, circuits.get cid = some entry → entry.link.cid = cid

theorem Change.keyed {circuits circuits' : Table UInt32 CircuitEntry} (change : Change circuits circuits')
    (keyed : Keyed circuits) : Keyed circuits' := by
  intro cid entry here
  cases change with
  | same => exact keyed cid entry here
  | store stored =>
    rcases Table.get_insert_some here with ⟨rfl, rfl⟩ | ⟨-, before⟩
    · rfl
    · exact keyed cid entry before
  | renew replaced link =>
    rcases Table.get_insert_some here with ⟨rfl, rfl⟩ | ⟨-, before⟩
    · rw [link, keyed _ _ replaced]
    · exact keyed cid entry before
  | remove _ => exact keyed cid entry (Table.get_remove_some here)

/-- The entry belongs to a circuit that `src` is the previous hop of. -/
def CircuitEntry.Behind (entry : CircuitEntry) (src : SocketAddr) : Prop :=
  match entry with
  | .origin .. => False
  | .relay _ _ _ prev _ _ => prev.peer = src
  | .terminal _ _ _ prev _ => prev.peer = src

theorem Node.behind_createdEntry (node : Node C) (src : SocketAddr) (cid : UInt32) (outcome : ProcessOutcome) :
    (node.createdEntry src cid outcome).Behind src := by cases outcome <;> rfl

/-- Every entry of another circuit is where it was, and where its circuit's cells look for it. -/
def Untouched (other : CircuitEntry → Prop) (circuits circuits' : Table UInt32 CircuitEntry) : Prop :=
  ∀ cid entry, circuits.get cid = some entry → other entry →
    circuits'.get cid = some entry ∧ circuits'.get entry.link.cid = some entry

def Free (other : CircuitEntry → Prop) (circuits : Table UInt32 CircuitEntry) (cid : UInt32) : Prop :=
  ∀ entry, circuits.get cid = some entry → ¬ other entry

theorem untouched_insert_iff {other : CircuitEntry → Prop} {circuits : Table UInt32 CircuitEntry} (keyed : Keyed circuits)
    {cid : UInt32} {stored : CircuitEntry} (own : ¬ other stored) :
    Untouched other circuits (circuits.insert cid stored) ↔ Free other circuits cid := by
  constructor
  · intro untouched entry here different
    have kept := (untouched cid entry here different).1
    rw [Table.get_insert_self, Option.some.injEq] at kept
    exact own (kept ▸ different)
  · intro free c entry here different
    have apart : c ≠ cid := by
      rintro rfl
      exact free entry here different
    rw [keyed c entry here, Table.get_insert_of_ne _ _ apart]
    exact ⟨here, here⟩

namespace Running

/-- A step leaves the circuits of others alone: a CREATE those of other peers and the node's own, a
finished build all that are not its own. -/
def Undisturbed (r : Running C) (event : Event) (r' : Running C) : Prop :=
  match event with
  | .recv _ src cell => cell.cmd = .create → (r.node.completes cell).isSome →
    Untouched (fun entry => ¬ entry.Behind src) r.node.circuits r'.node.circuits
  | .build (.store i) => ∀ task, r.stages.get i = some (.resolved task) →
    Untouched (fun entry => entry ≠ task.entry) r.node.circuits r'.node.circuits
  | _ => True

/-- Before a step, the cid it stores an entry under is not in use by another circuit. -/
def Fits (r : Running C) (event : Event) (_ : Running C) : Prop :=
  match event with
  | .recv _ src cell => cell.cmd = .create → (r.node.completes cell).isSome →
    Free (fun entry => ¬ entry.Behind src) r.node.circuits cell.cid
  | .build (.store i) => ∀ task, r.stages.get i = some (.resolved task) →
    Free (fun entry => entry ≠ task.entry) r.node.circuits task.cid
  | _ => True

theorem recv_completes (r : Running C) (lookup : Lookup) (src : SocketAddr) {cell : Cell} {outcome : ProcessOutcome}
    (create : cell.cmd = .create) (completed : r.node.completes cell = some outcome) :
    (r.recv lookup src cell).node.circuits = r.node.circuits.insert cell.cid (r.node.createdEntry src cell.cid outcome) := by
  have circuits := r.node.handleCell_circuits lookup src cell
  rwa [create, completed] at circuits

theorem undisturbed_step_iff {r r' : Running C} {event : Event} (keyed : Keyed r.node.circuits)
    (step : Step r event r') : Undisturbed r event r' ↔ Fits r event r' := by
  cases step with
  | recv lookup src cell =>
    refine forall_congr' fun create => forall_congr' fun completed => ?_
    obtain ⟨outcome, peeled⟩ := Option.isSome_iff_exists.mp completed
    rw [r.recv_completes lookup src create peeled]
    exact untouched_insert_iff keyed fun other => other (r.node.behind_createdEntry src cell.cid outcome)
  | build own step =>
    cases step with
    | @store i task here =>
      refine forall_congr' fun task' => forall_congr' fun same => ?_
      cases here.symm.trans same
      exact untouched_insert_iff keyed fun other => other rfl
    | _ => exact Iff.rfl
  | openStream => exact Iff.rfl
  | send => exact Iff.rfl
  | close => exact Iff.rfl

theorem spawn_keyed (seed : C.Rng) : Keyed (Builds.spawn C seed).node.circuits := by
  intro cid entry here
  cases here

/-- In the runs of a node in which no circuit of another is disturbed, exactly, no entry is ever
stored under a cid that another circuit is using. -/
theorem undisturbed_iff (seed : C.Rng) (events : List Event) (r : Running C) :
    Run (Such Step Undisturbed) (Builds.spawn C seed) events r ↔ Run (Such Step Fits) (Builds.spawn C seed) events r :=
  Run.such_iff (fun r => Keyed r.node.circuits) (fun _ _ _ keyed step => step.1.change.keyed keyed)
    (fun _ _ _ keyed step => undisturbed_step_iff keyed step) (spawn_keyed seed)

end Running

theorem Node.completes_single (node : Node C) {header : List UInt8} {outcome : ProcessOutcome} {frag : List UInt8}
    {cid : UInt32} (numbered : Numbered header) (single : (fragCount header).toNat = 1)
    (free : node.createFrags.get cid = none) (only : (fragment header)[0]? = some frag)
    (peeled : processHeader C node.identity header = .ok outcome) :
    node.completes ⟨cid, .create, 0, frag⟩ = some outcome := by
  have buffer : (node.createFrags.get cid).getD (.fresh (fragCount header)) = held header (Finset.range 0) := by
    rw [free, Option.getD_none, fresh_eq_held]
    rfl
  have gathered := node.gather_fragment numbered cid (by omega) buffer only
  rw [if_pos (by omega)] at gathered
  rw [completes, gathered]
  simp only [peeled]

theorem reassemble_some {cid : UInt32} {fragIdx total : UInt16} {chunk payload : List UInt8} {map : Table UInt32 FragBuf}
    (complete : (reassemble cid fragIdx total chunk map).1 = some payload) :
    (reassemble cid fragIdx total chunk map).2.get cid = none := by
  unfold reassemble at complete ⊢
  dsimp only at complete ⊢
  split at complete
  · rename_i full
    rw [if_pos full]
    split at complete
    · exact Table.get_remove_self ..
    · cases complete
  · cases complete

theorem Node.gather_some {node : Node C} {cell : Cell} {header : List UInt8} (full : (node.gather cell).1 = some header) :
    (node.gather cell).2.get cell.cid = none := by
  unfold gather at full ⊢
  split at full
  · exact reassemble_some full
  · cases full

theorem Running.recv_create (r : Running C) (lookup : Lookup) (src : SocketAddr) {cell : Cell} (create : cell.cmd = .create) :
    (r.recv lookup src cell).node = (r.node.handleCreate lookup src cell).1 := by
  rw [Builds.recv, Node.handleCell, create]

/-- A node that has completed a CREATE is ready for another one under the same cid. -/
theorem Node.completes_again (node : Node C) (lookup : Lookup) (src : SocketAddr) {cell : Cell} {outcome : ProcessOutcome}
    (completed : node.completes cell = some outcome) :
    (node.handleCreate lookup src cell).1.identity = node.identity ∧
      (node.handleCreate lookup src cell).1.createFrags.get cell.cid = none := by
  unfold completes at completed
  have cleared (header : List UInt8) (full : (node.gather cell).1 = some header) :
      (node.gather cell).2.get cell.cid = none := gather_some full
  unfold handleCreate
  generalize node.gather cell = gathered at completed cleared ⊢
  obtain ⟨full, frags⟩ := gathered
  cases full with
  | none => cases completed
  | some header =>
    dsimp only at completed cleared ⊢
    cases peeled : processHeader C node.identity header with
    | ok outcome => cases outcome <;> exact ⟨rfl, cleared header rfl⟩
    | error _ => exact ⟨rfl, cleared header rfl⟩
    | panic => exact ⟨rfl, cleared header rfl⟩

namespace Transparent

open Nbf.Crypto.Transparent

def soloCreate (cid : UInt32) : Cell := ⟨cid, .create, 0, (fragment soloHeader).headD []⟩

@[simp] theorem soloCreate_cid (cid : UInt32) : (soloCreate cid).cid = cid := rfl

theorem soloCreate_completes : ∃ kFwd kBwd, ∀ (node : Node crates) (cid : UInt32), node.identity = identity 1 →
    node.createFrags.get cid = none →
    node.completes (soloCreate cid) = some (.terminal (.zeros 16) kFwd kBwd) := by
  obtain ⟨size, kFwd, kBwd, peeled⟩ := solo_peels
  refine ⟨kFwd, kBwd, fun node cid own free => ?_⟩
  have numbered : Numbered soloHeader := by simp [Numbered, size, chunkLen, cellData, cellLen, cellHdr]
  have single : (fragCount soloHeader).toNat = 1 := by
    simp [toNat_fragCount numbered, size, chunkLen, cellData, cellLen, cellHdr]
  obtain ⟨frag, only⟩ : ∃ frag, (fragment soloHeader)[0]? = some frag := ⟨_, getElem?_fragment (by omega)⟩
  have same : (fragment soloHeader).headD [] = frag := by
    rw [List.headD_eq_head?_getD, List.head?_eq_getElem?, only, Option.getD_some]
  rw [soloCreate, same]
  exact node.completes_single numbered single free only (own ▸ peeled)

structure SoloReady (node : Node crates) : Prop where
  identity : node.identity = identity 1
  free : node.createFrags.get 1 = none

theorem spawn_soloReady : SoloReady (Builds.spawn crates (1 : UInt8)).node := ⟨rfl, rfl⟩

/-- The solo CREATE makes the node the terminal behind `src`, whatever it stored before. -/
theorem recv_soloCreate {kFwd kBwd : Octets 32}
    (completes : ∀ (node : Node crates) (cid : UInt32), node.identity = identity 1 → node.createFrags.get cid = none →
      node.completes (soloCreate cid) = some (.terminal (.zeros 16) kFwd kBwd))
    (r : Running crates) (ready : SoloReady r.node) (lookup : Lookup) (src : SocketAddr) :
    SoloReady (r.recv lookup src (soloCreate 1)).node ∧
      (r.recv lookup src (soloCreate 1)).node.circuits.get 1 = some (.terminal (.zeros 16) kFwd kBwd ⟨1, src⟩ 0) := by
  have completed := completes r.node 1 ready.identity ready.free
  obtain ⟨own, free⟩ := r.node.completes_again lookup src completed
  rw [soloCreate_cid] at free
  refine ⟨?_, ?_⟩
  · rw [r.recv_create lookup src rfl]
    exact ⟨own.trans ready.identity, free⟩
  · rw [r.recv_completes lookup src rfl completed, soloCreate_cid, Table.get_insert_self, Node.createdEntry]

/-- Two neighbours number their circuits from 1: the second CREATE takes the first one's place. -/
theorem shared_cid_disturbed : ∃ lookup r r',
    Run Running.Step (.spawn crates (1 : UInt8)) [.recv lookup (localhost 9200) (soloCreate 1)] r ∧
      Running.Step r (.recv lookup (localhost 9300) (soloCreate 1)) r' ∧
      ¬ Running.Undisturbed r (.recv lookup (localhost 9300) (soloCreate 1)) r' := by
  obtain ⟨kFwd, kBwd, completes⟩ := soloCreate_completes
  let lookup : Lookup := fun _ => .error .timeout
  obtain ⟨r, first⟩ : ∃ r : Running crates,
    (Builds.spawn crates (1 : UInt8)).recv lookup (localhost 9200) (soloCreate 1) = r := ⟨_, rfl⟩
  obtain ⟨ready, stored⟩ := recv_soloCreate completes _ spawn_soloReady lookup (localhost 9200)
  rw [first] at ready stored
  obtain ⟨-, replaced⟩ := recv_soloCreate completes r ready lookup (localhost 9300)
  have again := completes r.node 1 ready.identity ready.free
  refine ⟨lookup, r, _, first ▸ Run.single (.recv _ lookup _ _), .recv r lookup _ _, fun undisturbed => ?_⟩
  have kept := (undisturbed rfl (again ▸ rfl) 1 _ stored (localhost_ne (by decide))).1
  rw [replaced] at kept
  simp only [Option.some.injEq, CircuitEntry.terminal.injEq, HopLink.mk.injEq] at kept
  exact localhost_ne (by decide) kept.2.2.2.1.2

end Transparent
end Nbf.Net

import Nbf.Library.Run
import Nbf.Net.Builder

/-! `build_circuit` await by await.

A call allocates its cid, sends the CREATE fragments one by one, registers its
oneshot and waits; between any two of these the node handles cells and other
calls run.
-/

set_option autoImplicit false

namespace Nbf.Net

open Nbf.Library Nbf.Crypto

variable {C : Crates}

inductive Oneshot where
  | empty
  /-- `Ok(())` was sent. -/
  | sent
  /-- The sender was dropped. -/
  | closed
  deriving DecidableEq

inductive BuildStage where
  | prepared (built : BuiltHeader) (linkPub : Octets 32)
  /-- These fragments are still to be sent; with none left, the oneshot is still to be registered. -/
  | sending (task : BuildTask) (frags : List (List UInt8))
  | waiting (task : BuildTask) (rx : OneshotTx)
  /-- The wait has ended without `Ok(())`; what is under the cid is still to be removed. -/
  | expired (task : BuildTask)
  /-- The entry is still to be stored. -/
  | resolved (task : BuildTask)
  | returned (result : Except NetError CircuitHandle)
  | panicked

structure Builds (C : Crates) where
  node : Node C
  stages : Table Nat BuildStage
  oneshots : Table OneshotTx Oneshot
  nextTx : OneshotTx
  sent : List Effect

inductive BuildEvent where
  | recv (lookup : Lookup) (src : SocketAddr) (cell : Cell)
  | call (i : Nat) (lookup : Lookup) (route : List NodeId)
  | alloc (i : Nat)
  | fragment (i : Nat)
  | register (i : Nat)
  | wake (i : Nat)
  /-- The 5 s are over, or the sender was dropped. -/
  | expire (i : Nat)
  | cleanup (i : Nat)
  | store (i : Nat)
  /-- Anything the node does that leaves `pending` alone. -/
  | elsewhere

/-- A step that the call itself makes. -/
def BuildEvent.Own : BuildEvent → Prop
  | .recv .. | .elsewhere => False
  | _ => True

def resolvedBy (effects : List Effect) : List OneshotTx :=
  effects.filterMap fun
    | .resolve tx => some tx
    | _ => none

/-- `build_circuit` before `new_cid`: the header, and the link key of the first hop. -/
def Node.buildPrepare (node : Node C) (lookup : Lookup) (route : List NodeId) :
    Node C × Checked NetError (BuiltHeader × Octets 32) :=
  if route = [] ∨ maxHops < route.length then (node, .error (.badLength route.length)) else
  match resolveRoute lookup route with
  | .error err => (node, .error err)
  | .ok descs =>
    let (tag, rng) := C.fillBytes 16 node.rng
    let (built, rng) := buildHeader C descs tag rng
    let node := { node with rng }
    match built, descs with
    | .ok built, first :: _ => (node, .ok (built, first.linkPub))
    | .error err, _ => (node, .error (.crypto err))
    | _, _ => (node, .panic)

/-- The call without interruption, in terms of its parts. -/
theorem Node.buildStart_eq (node : Node C) (lookup : Lookup) (tx : OneshotTx) (route : List NodeId) :
    node.buildStart lookup tx route = match node.buildPrepare lookup route with
      | (node, .ok (built, linkPub)) =>
        ({ node with nextCid := node.nextCid + 1, pending := node.pending.insert node.nextCid tx },
          .ensurePeerLink built.firstAddr linkPub ::
            (fragment built.header).map fun frag => .sendCell built.firstAddr ⟨node.nextCid, .create, 0, frag⟩,
          .ok ⟨node.nextCid, built⟩)
      | (node, .error err) => (node, [], .error err)
      | (node, .panic) => (node, [], .panic) := by
  unfold buildStart buildPrepare
  by_cases badLength : route = [] ∨ maxHops < route.length
  · rw [if_pos badLength, if_pos badLength]
  rw [if_neg badLength, if_neg badLength]
  cases resolveRoute lookup route with
  | error err => rfl
  | ok descs =>
    generalize C.fillBytes 16 node.rng = drawn
    obtain ⟨tag, rng⟩ := drawn
    dsimp only
    generalize buildHeader C descs tag rng = header
    obtain ⟨built, rng'⟩ := header
    cases built with
    | panic => rfl
    | error err => cases descs <;> rfl
    | ok built => cases descs <;> rfl

theorem Node.buildPrepare_rng (node : Node C) (lookup : Lookup) (route : List NodeId) :
    ∃ rng, (node.buildPrepare lookup route).1 = { node with rng } := by
  unfold buildPrepare
  split
  · exact ⟨node.rng, rfl⟩
  split
  · exact ⟨node.rng, rfl⟩
  · dsimp only
    split <;> exact ⟨_, rfl⟩

namespace Builds

def spawn (C : Crates) (seed : C.Rng) : Builds C :=
  { node := .spawn C seed, stages := .empty, oneshots := .empty, nextTx := 0, sent := [] }

def put (s : Builds C) (i : Nat) (stage : BuildStage) : Builds C := { s with stages := s.stages.insert i stage }

def emit (s : Builds C) (effects : List Effect) : Builds C := { s with sent := s.sent ++ effects }

def closeAt (s : Builds C) (cid : UInt32) : Builds C :=
  { s with node := { s.node with pending := s.node.pending.remove cid },
           oneshots := match s.node.pending.get cid with
             | some tx => s.oneshots.insert tx .closed
             | none => s.oneshots }

def recv (s : Builds C) (lookup : Lookup) (src : SocketAddr) (cell : Cell) : Builds C :=
  let (node, effects) := s.node.handleCell lookup src cell
  { s.emit effects with node, oneshots := (resolvedBy effects).foldl (fun oneshots tx => oneshots.insert tx .sent) s.oneshots }

@[simp] theorem stages_recv (s : Builds C) (lookup : Lookup) (src : SocketAddr) (cell : Cell) :
    (s.recv lookup src cell).stages = s.stages := rfl

def call (s : Builds C) (i : Nat) (lookup : Lookup) (route : List NodeId) : Builds C :=
  let (node, prepared) := s.node.buildPrepare lookup route
  { s with node }.put i (match prepared with
    | .ok (built, linkPub) => .prepared built linkPub
    | .error err => .returned (.error err)
    | .panic => .panicked)

theorem pending_call (s : Builds C) (i : Nat) (lookup : Lookup) (route : List NodeId) :
    (s.call i lookup route).node.pending = s.node.pending := by
  obtain ⟨rng, same⟩ := s.node.buildPrepare_rng lookup route
  change (s.node.buildPrepare lookup route).1.pending = _
  rw [same]

def alloc (s : Builds C) (i : Nat) (built : BuiltHeader) (linkPub : Octets 32) : Builds C :=
  let (cid, node) := s.node.newCid
  ({ s with node }.emit [.ensurePeerLink built.firstAddr linkPub]).put i (.sending ⟨cid, built⟩ (fragment built.header))

/-- The sender that was under the cid is replaced, and so dropped. -/
def register (s : Builds C) (i : Nat) (task : BuildTask) : Builds C :=
  let s' := s.closeAt task.cid
  { s' with node := { s'.node with pending := s'.node.pending.insert task.cid s.nextTx },
            oneshots := s'.oneshots.insert s.nextTx .empty, nextTx := s.nextTx + 1 }.put i (.waiting task s.nextTx)

inductive Step : Builds C → BuildEvent → Builds C → Prop where
  | recv (s : Builds C) (lookup : Lookup) (src : SocketAddr) (cell : Cell) :
      Step s (.recv lookup src cell) (s.recv lookup src cell)
  | call {s : Builds C} {i : Nat} (lookup : Lookup) (route : List NodeId) : s.stages.get i = none →
      Step s (.call i lookup route) (s.call i lookup route)
  | alloc {s : Builds C} {i : Nat} {built : BuiltHeader} {linkPub : Octets 32} :
      s.stages.get i = some (.prepared built linkPub) → Step s (.alloc i) (s.alloc i built linkPub)
  | fragment {s : Builds C} {i : Nat} {task : BuildTask} {frag : List UInt8} {frags : List (List UInt8)} :
      s.stages.get i = some (.sending task (frag :: frags)) →
      Step s (.fragment i) ((s.emit [.sendCell task.built.firstAddr ⟨task.cid, .create, 0, frag⟩]).put i
        (.sending task frags))
  | register {s : Builds C} {i : Nat} {task : BuildTask} : s.stages.get i = some (.sending task []) →
      Step s (.register i) (s.register i task)
  | wake {s : Builds C} {i : Nat} {task : BuildTask} {rx : OneshotTx} : s.stages.get i = some (.waiting task rx) →
      s.oneshots.get rx = some .sent → Step s (.wake i) (s.put i (.resolved task))
  | expire {s : Builds C} {i : Nat} {task : BuildTask} {rx : OneshotTx} : s.stages.get i = some (.waiting task rx) →
      s.oneshots.get rx ≠ some .sent → Step s (.expire i) (s.put i (.expired task))
  | cleanup {s : Builds C} {i : Nat} {task : BuildTask} : s.stages.get i = some (.expired task) →
      Step s (.cleanup i) ((s.closeAt task.cid).put i (.returned (.error .timeout)))
  | store {s : Builds C} {i : Nat} {task : BuildTask} : s.stages.get i = some (.resolved task) →
      Step s (.store i) ({ s with node := (s.node.buildFinish task).1 }.put i (.returned (.ok (s.node.buildFinish task).2)))
  | elsewhere {s : Builds C} {node : Node C} (effects : List Effect) : node.pending = s.node.pending →
      Step s .elsewhere { s.emit effects with node }

/-! ## Uninterrupted calls -/

variable {s : Builds C}

def createEffects (task : BuildTask) (frags : List (List UInt8)) : List Effect :=
  frags.map fun frag => .sendCell task.built.firstAddr ⟨task.cid, .create, 0, frag⟩

theorem run_fragments {i : Nat} {task : BuildTask} {frags : List (List UInt8)} (here : s.stages.get i = some (.sending task frags)) :
    Run Step s (List.replicate frags.length (.fragment i)) ((s.emit (createEffects task frags)).put i (.sending task [])) := by
  induction frags generalizing s with
  | nil =>
    have same : (s.emit []).put i (.sending task []) = s := by
      simp only [put, emit, List.append_nil, Table.insert_get_self _ here]
    rw [createEffects, List.map_nil, same]
    exact .nil s
  | cons frag frags ih =>
    have rest := (ih (Table.get_insert_self ..)).cons (Step.fragment here)
    simp only [put, emit, Table.insert_insert, List.append_assoc] at rest
    exact rest

theorem run_sending {i : Nat} {lookup : Lookup} {route : List NodeId} {node : Node C} {built : BuiltHeader} {linkPub : Octets 32}
    (free : s.stages.get i = none) (prepared : s.node.buildPrepare lookup route = (node, .ok (built, linkPub))) :
    Run Step s (.call i lookup route :: .alloc i :: List.replicate (fragment built.header).length (.fragment i))
      (({ s with node := { node with nextCid := node.nextCid + 1 } }.emit (.ensurePeerLink built.firstAddr linkPub ::
        createEffects ⟨node.nextCid, built⟩ (fragment built.header))).put i (.sending ⟨node.nextCid, built⟩ [])) := by
  have called := Step.call lookup route free
  simp only [call, prepared] at called
  have sent := ((run_fragments (Table.get_insert_self ..)).cons (Step.alloc (Table.get_insert_self ..))).cons called
  simp only [alloc, Node.newCid, put, emit, Table.insert_insert, List.append_assoc, List.singleton_append] at sent
  exact sent

/-- Uninterrupted, a call does what `buildStart` does. -/
theorem run_buildStart {i : Nat} {lookup : Lookup} {route : List NodeId} {node : Node C} {effects : List Effect} {task : BuildTask}
    (free : s.stages.get i = none) (start : s.node.buildStart lookup s.nextTx route = (node, effects, .ok task)) :
    ∃ t, Run Step s ((.call i lookup route :: .alloc i :: List.replicate (fragment task.built.header).length (.fragment i)) ++
        [.register i]) t ∧ t.node = node ∧ t.sent = s.sent ++ effects ∧
      t.stages.get i = some (.waiting task s.nextTx) := by
  rw [Node.buildStart_eq] at start
  split at start
  next before built linkPub prepared =>
    cases start
    refine ⟨_, .snoc (run_sending free prepared) (.register (Table.get_insert_self ..)), ?_, rfl, Table.get_insert_self ..⟩
    simp only [register, closeAt, put, emit, Table.insert_remove]
  next => cases start
  next => cases start

/-! ## What the steps of a call change -/

variable {t : Builds C} {event : BuildEvent}

/-- All that a step of a call does to its node: it stores the entry, or moves the generator, the counter or `pending`. -/
inductive Moved (s : Builds C) (event : BuildEvent) (t : Builds C) : Prop where
  | aside (rng : C.Rng) {nextCid : UInt32} (pending : Table UInt32 OneshotTx) :
      nextCid = s.node.nextCid ∨ nextCid = s.node.nextCid + 1 → t.node = { s.node with rng, nextCid, pending } → Moved s event t
  | stored {i : Nat} {task : BuildTask} : event = .store i → s.stages.get i = some (.resolved task) →
      t = { s with node := (s.node.buildFinish task).1 }.put i (.returned (.ok (s.node.buildFinish task).2)) → Moved s event t

theorem Step.moved (step : Step s event t) (own : event.Own) : Moved s event t := by
  cases step with
  | recv | elsewhere => exact own.elim
  | call lookup route _ =>
    obtain ⟨rng, same⟩ := s.node.buildPrepare_rng lookup route
    exact .aside rng s.node.pending (.inl rfl) same
  | alloc _ => exact .aside s.node.rng s.node.pending (.inr rfl) rfl
  | fragment | wake | expire => exact .aside s.node.rng s.node.pending (.inl rfl) rfl
  | register _ => exact .aside s.node.rng _ (.inl rfl) rfl
  | cleanup _ => exact .aside s.node.rng _ (.inl rfl) rfl
  | store here => exact .stored rfl here rfl

theorem returned_insert {stages : Table Nat BuildStage} {i j : Nat} {result : Except NetError CircuitHandle}
    (done : stages.get j = some (.returned result)) (other : stages.get i ≠ some (.returned result)) (stage : BuildStage) :
    (stages.insert i stage).get j = some (.returned result) := by
  have apart : j ≠ i := by
    rintro rfl
    exact other done
  exact (Table.get_insert_of_ne _ _ apart).trans done

/-- A call that has returned stays so. -/
theorem Step.returned (step : Step s event t) {j : Nat} {result : Except NetError CircuitHandle}
    (done : s.stages.get j = some (.returned result)) : t.stages.get j = some (.returned result) := by
  cases step with
  | recv | elsewhere => exact done
  | call _ _ free => exact returned_insert done (by simp [free]) _
  | alloc here | fragment here | register here | wake here | expire here | cleanup here | store here =>
    exact returned_insert done (by simp [here]) _

end Builds
end Nbf.Net

import Nbf.Net.Build
import Nbf.Net.Builds

/-! Which CREATED wakes which build.

A CREATED that is handled finds the oneshot registered under its cid at that
moment, or none.
-/

set_option autoImplicit false

namespace Nbf.Net

open Nbf.Library Nbf.Crypto

variable {C : Crates}

/-! ## What a build hears -/

/-- What a build has heard between its last fragment and the end of its wait. -/
inductive Heard where
  | nothing
  /-- CREATED was handled, but never with the build's oneshot under the cid. -/
  | missed
  /-- CREATED was handled with the build's oneshot under the cid. -/
  | registered
  deriving DecidableEq

/-- From the last fragment to the end of the wait for this cid: the oneshot, once there is one. -/
def BuildStage.window (cid : UInt32) : BuildStage → Option (Option OneshotTx)
  | .sending task [] => if task.cid = cid then some none else none
  | .waiting task rx => if task.cid = cid then some (some rx) else none
  | _ => none

/-- What a build at `stage` has heard after a CREATED for `cid`, where `tx?` is registered. -/
def Heard.created (before : Heard) (cid : UInt32) (tx? : Option OneshotTx) (stage? : Option BuildStage) : Heard :=
  match stage?.bind (BuildStage.window cid) with
  | none => before
  | some none => if before = .registered then .registered else .missed
  | some (some rx) => if tx? = some rx ∨ before = .registered then .registered else .missed

abbrev Hearing (C : Crates) := Builds C × (Nat → Heard)

def heardAfter (a : Hearing C) : BuildEvent → Nat → Heard
  | .recv _ _ cell, i =>
    if cell.cmd = .created then (a.2 i).created cell.cid (a.1.node.pending.get cell.cid) (a.1.stages.get i) else a.2 i
  | _, i => a.2 i

def Builds.HearStep (a : Hearing C) (event : BuildEvent) (b : Hearing C) : Prop :=
  Builds.Step a.1 event b.1 ∧ b.2 = heardAfter a event

/-- How far a build is, against what it has heard. -/
def BuildStage.Agrees (oneshots : Table OneshotTx Oneshot) (heard : Heard) : Option BuildStage → Prop
  | some (.sending _ []) | some (.expired _) => heard ≠ .registered
  | some (.waiting _ rx) => oneshots.get rx = some .sent ↔ heard = .registered
  | some (.resolved _) => heard = .registered
  | some (.returned (.ok _)) => heard = .registered
  | some (.returned (.error _)) => heard ≠ .registered
  | some (.prepared _ _) | some (.sending _ _) | some .panicked | none => heard = .nothing

/-- Under a cid stands an open sender, at one cid only; if a build waits for it, it is the one of this cid. -/
structure Builds.Registered (s : Builds C) : Prop where
  empty : ∀ cid tx, s.node.pending.get cid = some tx → tx < s.nextTx ∧ s.oneshots.get tx = some .empty
  single : ∀ cid cid' tx, s.node.pending.get cid = some tx → s.node.pending.get cid' = some tx → cid' = cid
  below : ∀ i task rx, s.stages.get i = some (.waiting task rx) → rx < s.nextTx
  slot : ∀ i task rx cid, s.stages.get i = some (.waiting task rx) → s.node.pending.get cid = some rx → cid = task.cid

/-! ## What a step does to `pending` -/

theorem resolvedBy_sends {α : Type} (l : List α) (f : α → Effect) (silent : ∀ a tx, f a ≠ .resolve tx) :
    resolvedBy (l.map f) = [] := by
  simp only [resolvedBy, List.filterMap_map, List.filterMap_eq_nil_iff, Function.comp]
  intro a _
  cases sent : f a with
  | resolve tx => exact absurd sent (silent a tx)
  | sendCell | ensurePeerLink | deliver => rfl

theorem resolvedBy_decision (decision : Decision) : resolvedBy decision.effects = [] := by
  cases decision with
  | drop | deliver | pass => rfl
  | accept reply => cases reply <;> rfl

/-- Only CREATED takes a sender out of `pending`, and only its own. -/
theorem Node.handleCell_pending (node : Node C) (lookup : Lookup) (src : SocketAddr) {cell : Cell} (other : cell.cmd ≠ .created) :
    (node.handleCell lookup src cell).1.pending = node.pending ∧ resolvedBy (node.handleCell lookup src cell).2 = [] := by
  unfold handleCell
  cases cmd : cell.cmd with
  | created => exact absurd cmd other
  | create =>
    unfold handleCreate
    generalize node.gather cell = gathered
    obtain ⟨full, frags⟩ := gathered
    dsimp only
    split
    next => exact ⟨rfl, rfl⟩
    next header =>
      split
      next outcome _ =>
        cases outcome with
        | terminal => exact ⟨rfl, rfl⟩
        | relay => exact ⟨rfl, resolvedBy_sends _ _ fun _ _ same => by cases same⟩
      next => exact ⟨rfl, rfl⟩
  | relay =>
    unfold handleRelay
    dsimp only
    split
    next =>
      split
      next => exact ⟨rfl, rfl⟩
      next => exact ⟨rfl, resolvedBy_decision _⟩
    next => exact ⟨rfl, rfl⟩
  | destroy =>
    unfold handleDestroy
    dsimp only
    split <;> exact ⟨rfl, rfl⟩
  | padding => exact ⟨rfl, rfl⟩

namespace Builds

variable {s t : Builds C}

theorem recv_other (lookup : Lookup) (src : SocketAddr) {cell : Cell} (other : cell.cmd ≠ .created) :
    (s.recv lookup src cell).node.pending = s.node.pending ∧ (s.recv lookup src cell).oneshots = s.oneshots := by
  obtain ⟨pending, silent⟩ := s.node.handleCell_pending lookup src other
  refine ⟨pending, ?_⟩
  simp only [recv, silent, List.foldl_nil]

/-- `tx.send(Ok(()))` on the sender that was taken out, if one was. -/
def sendOk (oneshots : Table OneshotTx Oneshot) : Option OneshotTx → Table OneshotTx Oneshot
  | some tx => oneshots.insert tx .sent
  | none => oneshots

theorem recv_created (lookup : Lookup) (src : SocketAddr) {cell : Cell} (created : cell.cmd = .created) :
    (s.recv lookup src cell).node.pending = s.node.pending.remove cell.cid ∧
      (s.recv lookup src cell).oneshots = sendOk s.oneshots (s.node.pending.get cell.cid) := by
  simp only [recv, Node.handleCell, created, Node.handleCreated]
  cases here : s.node.pending.get cell.cid with
  | some tx => exact ⟨rfl, rfl⟩
  | none =>
    dsimp only
    split <;> exact ⟨(Table.remove_of_none _ here).symm, rfl⟩

theorem oneshots_closeAt (s : Builds C) (cid : UInt32) (rx : OneshotTx) : (s.closeAt cid).oneshots.get rx =
    if s.node.pending.get cid = some rx then some .closed else s.oneshots.get rx := by
  unfold closeAt
  cases here : s.node.pending.get cid with
  | some tx => simp [Table.get_insert, eq_comm]
  | none => simp

theorem waiting_put {i j : Nat} {stage : BuildStage} {task : BuildTask} {rx : OneshotTx} (still : ∀ task rx, stage ≠ .waiting task rx)
    (here : (s.put i stage).stages.get j = some (.waiting task rx)) : s.stages.get j = some (.waiting task rx) := by
  rcases Table.get_insert_some here with ⟨-, same⟩ | ⟨-, before⟩
  · exact absurd same (still task rx)
  · exact before

theorem Registered.spawn (seed : C.Rng) : Registered (spawn C seed) where
  empty _ _ here := by cases here
  single _ _ _ here := by cases here
  below _ _ _ here := by cases here
  slot _ _ _ _ here := by cases here

theorem Registered.shrink (registered : Registered s) (next : t.nextTx = s.nextTx)
    (kept : ∀ cid tx, t.node.pending.get cid = some tx →
      s.node.pending.get cid = some tx ∧ t.oneshots.get tx = s.oneshots.get tx)
    (waits : ∀ i task rx, t.stages.get i = some (.waiting task rx) → s.stages.get i = some (.waiting task rx)) :
    Registered t where
  empty cid tx here := by
    obtain ⟨old, same⟩ := kept cid tx here
    rw [next, same]
    exact registered.empty cid tx old
  single cid cid' tx here here' := registered.single cid cid' tx (kept cid tx here).1 (kept cid' tx here').1
  below i task rx here := next ▸ registered.below i task rx (waits i task rx here)
  slot i task rx cid here there := registered.slot i task rx cid (waits i task rx here) (kept cid rx there).1

theorem Registered.closeAt (registered : Registered s) (cid : UInt32) : Registered (s.closeAt cid) := by
  refine registered.shrink rfl (fun cid' tx here => ?_) fun _ _ _ here => here
  have old := Table.get_remove_some here
  refine ⟨old, ?_⟩
  rw [oneshots_closeAt, if_neg]
  intro closed
  exact Table.ne_of_get_remove here (registered.single cid cid' tx closed old)

theorem Registered.register (registered : Registered s) (i : Nat) (task : BuildTask) : Registered (s.register i task) := by
  have closed := registered.closeAt task.cid
  have fresh : ∀ cid, (s.closeAt task.cid).node.pending.get cid ≠ some s.nextTx :=
    fun cid old => Nat.lt_irrefl _ (closed.empty cid _ old).1
  refine ⟨fun cid tx here => ?_, Table.single_insert fresh closed.single, fun j task' rx here => ?_,
    fun j task' rx cid here there => ?_⟩
  · rcases Table.get_insert_some here with ⟨-, rfl⟩ | ⟨-, before⟩
    · exact ⟨Nat.lt_succ_self _, Table.get_insert_self ..⟩
    · obtain ⟨less, empty⟩ := closed.empty cid tx before
      exact ⟨Nat.lt_succ_of_lt less, (Table.get_insert_of_ne _ _ (Nat.ne_of_lt less)).trans empty⟩
  · rcases Table.get_insert_some here with ⟨-, same⟩ | ⟨-, before⟩
    · cases same
      exact Nat.lt_succ_self _
    · exact Nat.lt_succ_of_lt (registered.below j task' rx before)
  · rcases Table.get_insert_some here with ⟨-, same⟩ | ⟨-, before⟩
    · cases same
      rcases Table.get_insert_some there with ⟨same, -⟩ | ⟨-, old⟩
      · exact same
      · exact absurd old (fresh cid)
    · rcases Table.get_insert_some there with ⟨-, rfl⟩ | ⟨-, old⟩
      · exact absurd (registered.below j task' _ before) (Nat.lt_irrefl _)
      · exact closed.slot j task' rx cid before old

theorem Registered.step {event : BuildEvent} (registered : Registered s) (step : Step s event t) : Registered t := by
  cases step with
  | recv lookup src cell =>
    by_cases created : cell.cmd = .created
    · obtain ⟨pending, oneshots⟩ := s.recv_created lookup src created
      refine registered.shrink rfl (fun cid tx here => ?_) fun _ _ _ here => here
      rw [pending] at here
      have old := Table.get_remove_some here
      refine ⟨old, ?_⟩
      rw [oneshots]
      cases there : s.node.pending.get cell.cid with
      | none => rfl
      | some tx' =>
        refine Table.get_insert_of_ne _ _ ?_
        rintro rfl
        exact Table.ne_of_get_remove here (registered.single _ _ _ there old)
    · obtain ⟨pending, oneshots⟩ := s.recv_other lookup src created
      exact registered.shrink rfl (fun cid tx here => ⟨pending ▸ here, by rw [oneshots]⟩) fun _ _ _ here => here
  | @call i lookup route free =>
    refine registered.shrink rfl (fun cid tx here => ⟨s.pending_call i lookup route ▸ here, rfl⟩) fun j task rx here => ?_
    refine waiting_put (fun task rx same => ?_) here
    split at same <;> cases same
  | alloc _ => exact registered.shrink rfl (fun _ _ here => ⟨here, rfl⟩) fun _ _ _ => waiting_put (by simp)
  | fragment _ => exact registered.shrink rfl (fun _ _ here => ⟨here, rfl⟩) fun _ _ _ => waiting_put (by simp)
  | @register i task _ => exact registered.register i task
  | wake _ _ => exact registered.shrink rfl (fun _ _ here => ⟨here, rfl⟩) fun _ _ _ => waiting_put (by simp)
  | expire _ _ => exact registered.shrink rfl (fun _ _ here => ⟨here, rfl⟩) fun _ _ _ => waiting_put (by simp)
  | @cleanup i task _ =>
    exact (registered.closeAt task.cid).shrink rfl (fun _ _ here => ⟨here, rfl⟩) fun _ _ _ => waiting_put (by simp)
  | store _ => exact registered.shrink rfl (fun _ _ here => ⟨here, rfl⟩) fun _ _ _ => waiting_put (by simp)
  | elsewhere _ same => exact registered.shrink rfl (fun _ _ here => ⟨same ▸ here, rfl⟩) fun _ _ _ here => here

/-! ## Stages and what has been heard -/

def Agreeing (a : Hearing C) : Prop := ∀ i, BuildStage.Agrees a.1.oneshots (a.2 i) (a.1.stages.get i)

variable {heard : Nat → Heard}

theorem agrees_of_same {oneshots oneshots' : Table OneshotTx Oneshot} {h : Heard} {stage? : Option BuildStage}
    (agrees : BuildStage.Agrees oneshots h stage?)
    (same : ∀ task rx, stage? = some (.waiting task rx) → (oneshots'.get rx = some .sent ↔ oneshots.get rx = some .sent)) :
    BuildStage.Agrees oneshots' h stage? := by
  cases stage? with
  | none => exact agrees
  | some stage =>
    cases stage with
    | waiting task rx => exact (same task rx rfl).trans agrees
    | sending task frags => cases frags <;> exact agrees
    | returned result => cases result <;> exact agrees
    | prepared | expired | resolved | panicked => exact agrees

theorem Agreeing.of_get (agreeing : Agreeing (s, heard)) {i : Nat} {stage? : Option BuildStage}
    (here : s.stages.get i = stage?) : BuildStage.Agrees s.oneshots (heard i) stage? :=
  here ▸ agreeing i

theorem agrees_sending {h : Heard} (silent : h = .nothing) (oneshots : Table OneshotTx Oneshot) (task : BuildTask)
    (frags : List (List UInt8)) : BuildStage.Agrees oneshots h (some (.sending task frags)) := by
  subst silent
  cases frags with
  | nil => exact Heard.noConfusion
  | cons => rfl

theorem Agreeing.put (agreeing : Agreeing (s, heard)) {i : Nat} {stage : BuildStage}
    (same : ∀ j task rx, s.stages.get j = some (.waiting task rx) →
      (t.oneshots.get rx = some .sent ↔ s.oneshots.get rx = some .sent))
    (moved : t.stages = s.stages.insert i stage) (here : BuildStage.Agrees t.oneshots (heard i) (some stage)) :
    Agreeing (t, heard) := by
  intro j
  dsimp only
  rw [moved, Table.get_insert]
  split
  next same => exact same ▸ here
  next => exact agrees_of_same (agreeing j) (same j)

theorem get_sendOk (oneshots : Table OneshotTx Oneshot) (tx? : Option OneshotTx) (rx : OneshotTx) :
    (sendOk oneshots tx?).get rx = some .sent ↔ tx? = some rx ∨ oneshots.get rx = some .sent := by
  cases tx? with
  | none => simp [sendOk]
  | some tx =>
    rw [sendOk, Table.get_insert]
    split
    next same => simp [same]
    next other => simp [Ne.symm other]

theorem agrees_created {oneshots : Table OneshotTx Oneshot} {h : Heard} {stage? : Option BuildStage}
    (agrees : BuildStage.Agrees oneshots h stage?) (cid : UInt32) (tx? : Option OneshotTx)
    (slot : ∀ task rx, stage? = some (.waiting task rx) → tx? = some rx → cid = task.cid) :
    BuildStage.Agrees (sendOk oneshots tx?) (h.created cid tx? stage?) stage? := by
  -- Outside of its window a build hears nothing.
  cases stage? with
  | none => exact agrees
  | some stage =>
    cases stage with
    | prepared | expired | resolved | panicked => exact agrees
    | returned result => cases result <;> exact agrees
    | sending task frags =>
      cases frags with
      | cons => exact agrees
      | nil =>
        have early : h ≠ .registered := agrees
        change h.created cid tx? (some (.sending task [])) ≠ .registered
        simp only [Heard.created, Option.bind_some, BuildStage.window]
        split <;> simp_all
    | waiting task rx =>
      have before : oneshots.get rx = some .sent ↔ h = .registered := agrees
      change _ ↔ h.created cid tx? (some (.waiting task rx)) = .registered
      rw [get_sendOk]
      by_cases own : task.cid = cid
      · simp only [Heard.created, Option.bind_some, BuildStage.window, if_pos own, before]
        split <;> simp_all
      · have other : tx? ≠ some rx := fun same => own (slot task rx rfl same).symm
        simp only [Heard.created, Option.bind_some, BuildStage.window, if_neg own, before, other, false_or]

theorem sent_closeAt (registered : s.Registered) (cid : UInt32) (rx : OneshotTx) :
    (s.closeAt cid).oneshots.get rx = some .sent ↔ s.oneshots.get rx = some .sent := by
  rw [oneshots_closeAt]
  split
  next here => simp [(registered.empty cid rx here).2]
  next => rfl

theorem sent_register (registered : s.Registered) (i : Nat) (task : BuildTask) {j : Nat} {task' : BuildTask} {rx : OneshotTx}
    (here : s.stages.get j = some (.waiting task' rx)) :
    (s.register i task).oneshots.get rx = some .sent ↔ s.oneshots.get rx = some .sent := by
  have old : rx ≠ s.nextTx := Nat.ne_of_lt (registered.below j task' rx here)
  rw [← sent_closeAt registered task.cid rx]
  exact iff_of_eq (congrArg (· = _) (Table.get_insert_of_ne _ _ old))

theorem Agreeing.step {a b : Hearing C} {event : BuildEvent} (agreeing : Agreeing a) (registered : a.1.Registered)
    (step : HearStep a event b) : Agreeing b := by
  obtain ⟨s, heard⟩ := a
  obtain ⟨t, heard'⟩ := b
  obtain ⟨step, rfl⟩ : Step s event t ∧ heard' = heardAfter (s, heard) event := step
  cases step with
  | recv lookup src cell =>
    intro i
    by_cases created : cell.cmd = .created
    · obtain ⟨-, oneshots⟩ := s.recv_created lookup src created
      simp only [heardAfter, created, if_true, oneshots]
      exact agrees_created (agreeing i) _ _ fun task rx here there => registered.slot i task rx _ here there
    · obtain ⟨-, oneshots⟩ := s.recv_other lookup src created
      simp only [heardAfter, created, if_false, oneshots]
      exact agreeing i
  | @call i lookup route free =>
    have silent : heard i = .nothing := agreeing.of_get free
    refine agreeing.put (fun _ _ _ _ => Iff.rfl) rfl ?_
    split
    · exact silent
    · change heard i ≠ .registered
      simp [silent]
    · exact silent
  | @alloc i built linkPub here =>
    exact agreeing.put (fun _ _ _ _ => Iff.rfl) rfl (agrees_sending (agreeing.of_get here) ..)
  | @fragment i task frag frags here =>
    exact agreeing.put (fun _ _ _ _ => Iff.rfl) rfl (agrees_sending (agreeing.of_get here) ..)
  | @register i task here =>
    have unheard : heard i ≠ .registered := agreeing.of_get here
    refine agreeing.put (fun j task' rx waits => sent_register registered i task waits) rfl ?_
    have opened : (s.register i task).oneshots.get s.nextTx = some .empty := Table.get_insert_self ..
    change _ ↔ _
    rw [opened]
    exact iff_of_false (by simp) unheard
  | @wake i task rx here sent =>
    have agrees : s.oneshots.get rx = some .sent ↔ heard i = .registered := agreeing.of_get here
    exact agreeing.put (fun _ _ _ _ => Iff.rfl) rfl (agrees.mp sent)
  | @expire i task rx here unsent =>
    have agrees : s.oneshots.get rx = some .sent ↔ heard i = .registered := agreeing.of_get here
    exact agreeing.put (fun _ _ _ _ => Iff.rfl) rfl fun heard => unsent (agrees.mpr heard)
  | @cleanup i task here =>
    have unheard : heard i ≠ .registered := agreeing.of_get here
    exact agreeing.put (fun _ _ rx _ => sent_closeAt registered task.cid rx) rfl unheard
  | @store i task here =>
    have sent : heard i = .registered := agreeing.of_get here
    exact agreeing.put (fun _ _ _ _ => Iff.rfl) rfl sent
  | elsewhere _ _ => exact agreeing

theorem run_agreeing {seed : C.Rng} {events : List BuildEvent} {a : Hearing C}
    (run : Run HearStep (spawn C seed, fun _ => .nothing) events a) : Agreeing a ∧ a.1.Registered := by
  exact run.invariant (fun a => Agreeing a ∧ a.1.Registered)
    (fun _ _ _ inv step => ⟨inv.1.step inv.2 step, inv.2.step step.1⟩) ⟨fun _ => rfl, .spawn seed⟩

/-- In every interleaving, a build for which CREATED was handled after its last fragment and before the end of its
wait returns `Ok` exactly if one was handled while the build's oneshot was registered under the cid; and then the
build comes to its `Ok` by steps of its own. -/
theorem created_wakes_iff (seed : C.Rng) (events : List BuildEvent) (s : Builds C) (heard : Nat → Heard)
    (run : Run HearStep (spawn C seed, fun _ => .nothing) events (s, heard)) (i : Nat) :
    (∀ result, s.stages.get i = some (.returned result) →
      ((heard i ≠ .nothing → ∃ handle, result = .ok handle) ↔ (heard i ≠ .nothing → heard i = .registered))) ∧
    (heard i = .registered → ∃ own t handle, Run Step s own t ∧ (∀ event ∈ own, event = .wake i ∨ event = .store i) ∧
      t.stages.get i = some (.returned (.ok handle))) := by
  have agrees : BuildStage.Agrees s.oneshots (heard i) (s.stages.get i) := (run_agreeing run).1 i
  refine ⟨fun result returned => ?_, fun registered => ?_⟩
  · rw [returned] at agrees
    cases result with
    | ok handle => exact iff_of_true (fun _ => ⟨handle, rfl⟩) fun _ => agrees
    | error err =>
      refine forall_congr' fun _ => iff_of_false ?_ agrees
      rintro ⟨handle, same⟩
      cases same
  -- What is left is the end of the wait and the storing of the entry.
  · have stored {s : Builds C} {task : BuildTask} (here : s.stages.get i = some (.resolved task)) :=
      Run.single (Step.store here)
    cases here : s.stages.get i with
    | none =>
      rw [here, registered] at agrees
      cases agrees
    | some stage =>
      rw [here, registered] at agrees
      cases stage with
      | prepared | panicked => cases agrees
      | expired task => exact absurd rfl agrees
      | sending task frags =>
        cases frags with
        | nil => exact absurd rfl agrees
        | cons => cases agrees
      | waiting task rx =>
        have woken := Step.wake here (agrees.mpr rfl)
        exact ⟨_, _, _, (stored (Table.get_insert_self ..)).cons woken, by simp, Table.get_insert_self ..⟩
      | resolved task => exact ⟨_, _, _, stored here, by simp, Table.get_insert_self ..⟩
      | returned result =>
        cases result with
        | ok handle => exact ⟨[], s, handle, .nil s, by simp, here⟩
        | error err => exact absurd rfl agrees

theorem hear {event : BuildEvent} (step : Step s event t) (heard : Nat → Heard) :
    HearStep (s, heard) event (t, heardAfter (s, heard) event) := ⟨step, rfl⟩

theorem run_quiet {events : List BuildEvent} (run : Run Step s events t)
    (quiet : ∀ event ∈ events, ∀ lookup src cell, event ≠ .recv lookup src cell) (heard : Nat → Heard) :
    Run HearStep (s, heard) events (t, heard) := by
  induction run with
  | nil => exact .nil _
  | @snoc _ _ events event _ last ih =>
    refine .snoc (ih fun other member => quiet other (List.mem_append_left _ member)) ⟨last, ?_⟩
    have silent := quiet event (by simp)
    funext i
    cases event with
    | recv lookup src cell => exact absurd rfl (silent lookup src cell)
    | _ => rfl

theorem heard_waiting {i : Nat} (task : BuildTask) {rx : OneshotTx} (here : s.stages.get i = some (.waiting task rx))
    (slot : s.node.pending.get task.cid = some rx) (heard : Nat → Heard) (lookup : Lookup) (src : SocketAddr) :
    heardAfter (s, heard) (.recv lookup src ⟨task.cid, .created, 0, []⟩) i = .registered := by
  simp [heardAfter, Heard.created, BuildStage.window, here, slot]

theorem heard_gap {i : Nat} (task : BuildTask) (here : s.stages.get i = some (.sending task [])) (heard : Nat → Heard)
    (unheard : heard i ≠ .registered) (lookup : Lookup) (src : SocketAddr) :
    heardAfter (s, heard) (.recv lookup src ⟨task.cid, .created, 0, []⟩) i = .missed := by
  simp [heardAfter, Heard.created, BuildStage.window, here, unheard]

def atGap (C : Crates) (seed : C.Rng) (node : Node C) (built : BuiltHeader) (linkPub : Octets 32) : Builds C :=
  ({ spawn C seed with node := { node with nextCid := node.nextCid + 1 } }.emit (.ensurePeerLink built.firstAddr linkPub ::
    createEffects ⟨node.nextCid, built⟩ (fragment built.header))).put 0 (.sending ⟨node.nextCid, built⟩ [])

theorem run_atGap {seed : C.Rng} {lookup : Lookup} {route : List NodeId} {node : Node C} {built : BuiltHeader} {linkPub : Octets 32}
    (prepared : (Node.spawn C seed).buildPrepare lookup route = (node, .ok (built, linkPub))) :
    ∃ events, Run HearStep (spawn C seed, fun _ => .nothing) events (atGap C seed node built linkPub, fun _ => .nothing) := by
  refine ⟨_, run_quiet (run_sending rfl prepared) (fun event member => ?_) _⟩
  simp only [List.mem_cons, List.mem_replicate] at member
  rcases member with rfl | rfl | ⟨-, rfl⟩ <;> simp

end Builds

namespace Transparent

open Nbf.Crypto.Transparent

theorem prepared_pair : ∃ node built linkPub,
    (Node.spawn crates (50 : UInt8)).buildPrepare pairLookup (pairRoute.map Descriptor.nodeId) = (node, .ok (built, linkPub)) := by
  obtain ⟨node, linkPub, plan, built, start, -⟩ :=
    (Node.spawn crates (50 : UInt8)).buildStart_plan lawful pair_honest (pair_ready 0).resolves 0
  rw [Node.buildStart_eq] at start
  split at start
  next before built linkPub prepared => exact ⟨before, built, linkPub, prepared⟩
  next => cases start
  next => cases start

/-- CREATED is handled after the oneshot was registered. -/
theorem created_wakes : ∃ events s heard, Run Builds.HearStep (.spawn crates (50 : UInt8), fun _ => .nothing) events (s, heard) ∧
    heard 0 = .registered ∧ ∃ own t handle, Run Builds.Step s own t ∧ (∀ event ∈ own, event = .wake 0 ∨ event = .store 0) ∧
      t.stages.get 0 = some (.returned (.ok handle)) := by
  obtain ⟨node, built, linkPub, prepared⟩ := prepared_pair
  obtain ⟨events, before⟩ := Builds.run_atGap prepared
  have registered := before.snoc (Builds.hear (.register (Table.get_insert_self ..)) _)
  have woken := registered.snoc (Builds.hear (.recv _ pairLookup (localhost 9100) ⟨node.nextCid, .created, 0, []⟩) _)
  have heard := Builds.heard_waiting ⟨node.nextCid, built⟩ (s := (Builds.atGap crates (50 : UInt8) node built linkPub).register 0 _)
    (Table.get_insert_self ..) (Table.get_insert_self ..)
  exact ⟨_, _, _, woken, heard _ _ _, (Builds.created_wakes_iff _ _ _ _ woken 0).2 (heard _ _ _)⟩

/-- CREATED is handled after the last fragment and before the oneshot was registered; the build times out. -/
theorem created_lost : ∃ events s heard, Run Builds.HearStep (.spawn crates (50 : UInt8), fun _ => .nothing) events (s, heard) ∧
    heard 0 ≠ .nothing ∧ s.stages.get 0 = some (.returned (.error .timeout)) := by
  obtain ⟨node, built, linkPub, prepared⟩ := prepared_pair
  obtain ⟨events, before⟩ := Builds.run_atGap prepared
  let lost := (Builds.atGap crates (50 : UInt8) node built linkPub).recv pairLookup (localhost 9100) ⟨node.nextCid, .created, 0, []⟩
  have heard := Builds.heard_gap ⟨node.nextCid, built⟩ (s := Builds.atGap crates (50 : UInt8) node built linkPub) (i := 0)
    (Table.get_insert_self ..) (fun _ => .nothing) (by simp) pairLookup (localhost 9100)
  have arrived := before.snoc (Builds.hear (.recv _ pairLookup (localhost 9100) ⟨node.nextCid, .created, 0, []⟩) _)
  -- The wait begins with an empty oneshot, and nothing sends on it.
  have waits : Builds.Step lost (.register 0) (lost.register 0 ⟨node.nextCid, built⟩) := .register (Table.get_insert_self ..)
  have empty : (lost.register 0 ⟨node.nextCid, built⟩).oneshots.get lost.nextTx = some .empty := Table.get_insert_self ..
  have expires := Builds.Step.expire (s := lost.register 0 ⟨node.nextCid, built⟩) (i := 0) (Table.get_insert_self ..)
    (by rw [empty]; simp)
  have ends := ((Run.single waits).snoc expires).snoc (Builds.Step.cleanup (Table.get_insert_self ..))
  have quiet := Builds.run_quiet ends (by simp) (heardAfter (Builds.atGap crates (50 : UInt8) node built linkPub, fun _ => .nothing)
    (.recv pairLookup (localhost 9100) ⟨node.nextCid, .created, 0, []⟩))
  refine ⟨_, _, _, arrived.trans quiet, ?_, Table.get_insert_self ..⟩
  simp [heard]

end Transparent
end Nbf.Net
